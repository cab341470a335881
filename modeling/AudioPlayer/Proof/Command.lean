import AudioPlayer.Proof.Player
import AudioPlayer.Spec.Command

/-!
# What is made of a command line

`parsecmd` runs through the line once. What it has done at offset `c` depends on the line alone:
the spaces before `c` are zeros, and `argv` are the offsets where words start (`parseLoop_spec`).
So it is safe for the lines that end in the buffer and have one to `MAXARGS` words
(`parsecmd_safe_iff`), and it cuts those into their words (`parsecmd_tokens`).

The volume that a user types is honoured up to 32 bits (`volume_command_iff`).
-/

namespace AudioPlayer

open Function Bytes List

variable {m : Mem} {size c e p : ℕ} {s : List UInt8} {n : ℕ}

/-! ## The loop -/

/-- A word starts at offset `i`. A zero in the input separates words as a space does. -/
def wordStart (m : Mem) (i : ℕ) : Bool :=
  m i ≠ 32 && (i = 0 || m (i - 1) = 32 || m (i - 1) = 0)

/-- The offsets below `n` where words start. -/
def wordStarts (m : Mem) (n : ℕ) : List ℕ := (List.range n).filter (wordStart m)

/-- The spaces before `c` are overwritten. -/
def blanked (m : Mem) (c : ℕ) : Mem := fun i => if i < c ∧ m i = 32 then 0 else m i

theorem wordStarts_succ (m : Mem) (n : ℕ) :
    wordStarts m (n + 1) = if wordStart m n then wordStarts m n ++ [n] else wordStarts m n := by
  unfold wordStarts
  rw [range_succ, filter_append, filter_singleton]
  cases wordStart m n <;> simp

theorem wordStarts_mono {k n : ℕ} (h : k ≤ n) :
    (wordStarts m k).length ≤ (wordStarts m n).length :=
  ((range_sublist.2 h).filter _).length_le

theorem blanked_of_le {i : ℕ} (h : c ≤ i) : blanked m c i = m i := if_neg (by omega)

theorem blanked_zero (m : Mem) : blanked m 0 = m := funext fun _ => if_neg (by omega)

/-- A space is overwritten, anything else is passed over. -/
theorem blanked_succ (m : Mem) (c : ℕ) :
    blanked m (c + 1) = if m c = 32 then update (blanked m c) c 0 else blanked m c := by
  funext i
  by_cases hi : i = c
  · subst hi
    by_cases hspace : m i = 32
    · rw [if_pos hspace, update_self]
      exact if_pos ⟨Nat.lt_succ_self i, hspace⟩
    · rw [if_neg hspace, blanked_of_le le_rfl]
      exact if_neg fun h => hspace h.2
  · have hlt : i < c + 1 ↔ i < c := by omega
    have hsame : blanked m (c + 1) i = blanked m c i := by simp only [blanked, hlt]
    rw [hsame]
    split
    · rw [update_of_ne hi]
    · rfl

/-- The zeros of the loop are where words start. -/
theorem wordStart_iff (h : m c ≠ 32) :
    wordStart m c = true ↔ c = 0 ∨ blanked m c (c - 1) = 0 := by
  unfold wordStart blanked
  rcases Nat.eq_zero_or_pos c with rfl | hpos
  · simp [h]
  · simp only [h, ne_eq, not_false_eq_true, decide_true, Bool.true_and, Bool.or_eq_true,
      decide_eq_true_eq]
    by_cases hspace : m (c - 1) = 32
    · simp [hspace, Nat.sub_lt hpos]
    · simp [hspace]

/-- One pass of the loop that does not meet the newline. -/
theorem parseLoop_succ (hc : m c ≠ 10) :
    parseLoop (n + 1) (blanked m c) c (wordStarts m c) =
      if wordStart m c = true ∧ maxargs ≤ (wordStarts m c).length then .error .argv
      else parseLoop n (blanked m (c + 1)) (c + 1) (wordStarts m (c + 1)) := by
  rw [parseLoop, blanked_of_le le_rfl, if_neg hc, blanked_succ, wordStarts_succ]
  by_cases hspace : m c = 32
  · have hno : wordStart m c = false := by simp [wordStart, hspace]
    simp [hspace, hno]
  · rw [if_neg hspace, if_neg hspace]
    by_cases hstart : wordStart m c = true
    · rw [if_pos ((wordStart_iff hspace).1 hstart), if_pos hstart]
      by_cases hroom : (wordStarts m c).length < maxargs
      · rw [if_pos hroom, if_neg (by omega)]
      · rw [if_neg hroom, if_pos ⟨hstart, by omega⟩]
    · rw [if_neg fun h => hstart ((wordStart_iff hspace).2 h), if_neg hstart,
        if_neg fun h => hstart h.1]

/-- **What the loop does** with a line that ends at offset `e`, -/
theorem parseLoop_line (he : m e = 10) (hline : ∀ i < e, m i ≠ 10) (hn : e < c + n)
    (hc : c ≤ e) (hroom : (wordStarts m c).length ≤ maxargs) :
    parseLoop n (blanked m c) c (wordStarts m c) =
      if (wordStarts m e).length ≤ maxargs then
        .ok (update (blanked m e) e 0, wordStarts m e)
      else .error .argv := by
  induction n generalizing c with
  | zero => omega
  | succ n ih =>
    by_cases hend : c = e
    · subst hend
      rw [parseLoop, blanked_of_le le_rfl, if_pos he, if_pos hroom]
    · have hmono : (wordStarts m (c + 1)).length ≤ (wordStarts m e).length :=
        wordStarts_mono (by omega)
      rw [parseLoop_succ (hline c (by omega))]
      by_cases hfull : wordStart m c = true ∧ maxargs ≤ (wordStarts m c).length
      · rw [wordStarts_succ, if_pos hfull.1, length_append, length_singleton] at hmono
        rw [if_pos hfull, if_neg (by omega)]
      · rw [if_neg hfull]
        refine ih (by omega) (by omega) ?_
        rw [wordStarts_succ]
        split
        · rename_i hstart
          have : ¬ maxargs ≤ (wordStarts m c).length := fun h => hfull ⟨hstart, h⟩
          rw [length_append, length_singleton]
          omega
        · exact hroom

/-- and with a buffer without an end. -/
theorem parseLoop_endless (hline : ∀ i < c + n, m i ≠ 10) :
    ∃ fault, parseLoop n (blanked m c) c (wordStarts m c) = .error fault := by
  induction n generalizing c with
  | zero => exact ⟨.buffer, rfl⟩
  | succ n ih =>
    rw [parseLoop_succ (hline c (by omega))]
    split
    · exact ⟨.argv, rfl⟩
    · exact ih fun i hi => hline i (by omega)

/-! ## Names -/

/-- There is a string at offset `p` of a buffer, with its final zero. -/
structure HasString (size : ℕ) (m : Mem) (p : ℕ) (s : List UInt8) : Prop where
  inside : p + s.length < size
  bytes : ∀ i < s.length, m (p + i) = s.getD i 0
  final : m (p + s.length) = 0
  nonzero : ∀ b ∈ s, b ≠ 0

/-- The string at offset `p`. -/
def cstring (size : ℕ) (m : Mem) (p : ℕ) : List UInt8 := (slice m p (size - p)).takeWhile (· ≠ 0)

theorem HasString.tail {b : UInt8} (h : HasString size m p (b :: s)) :
    HasString size m (p + 1) s := by
  refine ⟨?_, fun i hi => ?_, ?_, fun x hx => h.nonzero x (mem_cons_of_mem b hx)⟩
  · have := h.inside
    rw [length_cons] at this
    omega
  · have := h.bytes (i + 1) (by rw [length_cons]; omega)
    rwa [getD_cons_succ, ← add_assoc, add_right_comm] at this
  · have := h.final
    rwa [length_cons, ← add_assoc, add_right_comm] at this

theorem HasString.cstring_eq (h : HasString size m p s) : cstring size m p = s := by
  induction s generalizing p with
  | nil =>
    have hin := h.inside
    have hfinal : m p = 0 := h.final
    obtain ⟨n, hn⟩ : ∃ n, size - p = n + 1 := ⟨size - p - 1, by simp at hin; omega⟩
    rw [cstring, hn, slice_succ, takeWhile_cons, hfinal]
    rfl
  | cons b s ih =>
    have hin := h.inside
    rw [length_cons] at hin
    have hb : m p = b := h.bytes 0 (by simp)
    have hne : b ≠ 0 := h.nonzero b mem_cons_self
    obtain ⟨n, hn⟩ : ∃ n, size - p = n + 1 := ⟨size - p - 1, by omega⟩
    have hrest := ih h.tail
    rw [cstring, show size - (p + 1) = n by omega] at hrest
    rw [cstring, hn, slice_succ, takeWhile_cons, hb, if_pos (by simpa using hne), hrest]

theorem HasString.nil (hp : p < size) (hzero : m p = 0) : HasString size m p [] :=
  ⟨hp, nofun, hzero, nofun⟩

theorem HasString.cons {b : UInt8} (hb : m p = b) (hne : b ≠ 0)
    (h : HasString size m (p + 1) s) : HasString size m p (b :: s) := by
  refine ⟨?_, fun i hi => ?_, ?_, fun x hx => ?_⟩
  · have := h.inside
    rw [length_cons]
    omega
  · cases i with
    | zero => exact hb
    | succ i =>
      rw [getD_cons_succ, ← h.bytes i (by simpa using hi)]
      congr 1
      omega
  · rw [length_cons, ← h.final]
    congr 1
    omega
  · rcases mem_cons.1 hx with rfl | hx
    · exact hne
    · exact h.nonzero x hx

/-- A string ends at a zero of the buffer. -/
theorem exists_hasString (hp : p ≤ e) (he : e < size) (hzero : m e = 0) :
    ∃ s, HasString size m p s := by
  obtain ⟨n, rfl⟩ := Nat.exists_eq_add_of_le hp
  induction n generalizing p with
  | zero => exact ⟨[], .nil he hzero⟩
  | succ n ih =>
    by_cases hb : m p = 0
    · exact ⟨[], .nil (by omega) hb⟩
    · obtain ⟨s, hs⟩ := ih (p := p + 1) (by omega) (by omega) (by
        rwa [show p + 1 + n = p + (n + 1) by omega])
      exact ⟨m p :: s, .cons rfl hb hs⟩

/-- **What `strcmp` does.** -/
theorem strcmp_spec {s q : List UInt8} (h : HasString size m p s) (hq : ∀ b ∈ q, b ≠ 0) :
    ∃ r, strcmp size m p q = some r ∧ (r = 0 ↔ s = q) := by
  have hp : p < size := by have := h.inside; omega
  induction q generalizing p s with
  | nil =>
    refine ⟨(m p).toNat, if_pos hp, ?_⟩
    cases s with
    | nil =>
      have hfinal : m p = 0 := h.final
      simp [hfinal]
    | cons b s =>
      have hb : m p = b := h.bytes 0 (by simp)
      have hne := h.nonzero b mem_cons_self
      simpa [hb, ← UInt8.toNat_inj] using hne
  | cons c q ih =>
    have hc : c ≠ 0 := hq c mem_cons_self
    rw [strcmp, if_pos hp]
    cases s with
    | nil =>
      have hfinal : m p = 0 := h.final
      rw [if_neg fun hne => hne.1 hfinal]
      refine ⟨_, rfl, ?_⟩
      rw [← UInt8.toNat_inj.ne] at hc
      simp only [hfinal, UInt8.toNat_zero] at hc ⊢
      exact ⟨fun h => absurd h (by omega), nofun⟩
    | cons b s =>
      have hb : m p = b := h.bytes 0 (by simp)
      have hne := h.nonzero b mem_cons_self
      rw [hb]
      by_cases hbc : b = c
      · obtain ⟨r, hr, hiff⟩ := ih h.tail (fun x hx => hq x (mem_cons_of_mem c hx)) (by
          have := h.tail.inside
          omega)
        rw [if_pos ⟨hne, hbc⟩]
        exact ⟨r, hr, by rw [hiff, hbc, cons_inj_right]⟩
      · rw [if_neg fun h => hbc h.2]
        refine ⟨_, rfl, ?_⟩
        rw [cons_eq_cons]
        rw [← UInt8.toNat_inj] at hbc
        exact ⟨fun h => by omega, fun h => absurd (congrArg UInt8.toNat h.1) hbc⟩

/-- The command with a given name. -/
def commandOf (name : List UInt8) : Command := (commandNames.lookup name).getD .error

/-- The comparisons find the command with the name. -/
theorem commandType_spec (h : HasString size m p s)
    (names : List (List UInt8 × Command)) (hnames : ∀ x ∈ names, ∀ b ∈ x.1, b ≠ 0) :
    commandType size m p names = some ((names.lookup s).getD .error) := by
  induction names with
  | nil => rfl
  | cons x names ih =>
    obtain ⟨r, hr, hiff⟩ := strcmp_spec h (hnames x mem_cons_self)
    rw [commandType, hr, Option.bind_some, ih fun y hy => hnames y (mem_cons_of_mem x hy),
      lookup_cons]
    by_cases hsame : s = x.1
    · rw [if_pos (hiff.2 hsame), beq_iff_eq.2 hsame]
      rfl
    · rw [if_neg (hiff.not.2 hsame), beq_eq_false_iff_ne.2 hsame]

theorem commandNames_nonzero : ∀ x ∈ commandNames, ∀ b ∈ x.1, b ≠ 0 := by
  have h : commandNames.all (fun x => x.1.all (· ≠ 0)) = true := by decide +kernel
  simpa only [all_eq_true, decide_eq_true_eq] using h

/-! ## The whole line -/

/-- The buffer behind the loop, for a line that ends at offset `e`. -/
def cut (m : Mem) (e : ℕ) : Mem := update (blanked m e) e 0

theorem parseLoop_cut (he : m e = 10) (hline : ∀ i < e, m i ≠ 10) (hsize : e < size) :
    parseLoop size m 0 [] =
      if (wordStarts m e).length ≤ maxargs then .ok (cut m e, wordStarts m e) else .error .argv := by
  have hloop := parseLoop_line (c := 0) he hline (by omega : e < 0 + size) (Nat.zero_le e)
    (Nat.zero_le _)
  rwa [blanked_zero] at hloop

/-- **What `parsecmd` does** with a line that ends at offset `e` of the buffer. -/
theorem parsecmd_line (he : m e = 10) (hline : ∀ i < e, m i ≠ 10) (hsize : e < size)
    (hpos : 1 ≤ (wordStarts m e).length) (hmax : (wordStarts m e).length ≤ maxargs) :
    parsecmd size m = .ok (cut m e,
      ⟨commandOf (cstring size (cut m e) ((wordStarts m e).headD 0)), wordStarts m e,
        (wordStarts m e).length⟩) := by
  unfold parsecmd
  rw [parseLoop_cut he hline hsize, if_pos hmax]
  cases hw : wordStarts m e with
  | nil => rw [hw] at hpos; exact absurd hpos (by decide)
  | cons name rest =>
    have hname : name < e := by
      have hmem : name ∈ wordStarts m e := hw ▸ mem_cons_self
      exact mem_range.1 (mem_filter.1 hmem).1
    have hzero : cut m e e = 0 := update_self _ _ _
    obtain ⟨s, hs⟩ := exists_hasString hname.le hsize hzero
    dsimp only
    rw [commandType_spec hs commandNames commandNames_nonzero, headD_cons, hs.cstring_eq]
    rfl

/-- `parsecmd` is safe for the lines with an end and one to `MAXARGS` words. -/
theorem parsecmd_ok_iff : (∃ r, parsecmd size m = .ok r) ↔
    ∃ e < size, m e = 10 ∧ (∀ i < e, m i ≠ 10) ∧ 1 ≤ (wordStarts m e).length ∧
      (wordStarts m e).length ≤ maxargs := by
  constructor
  · rintro ⟨r, h⟩
    unfold parsecmd at h
    by_cases hend : ∃ e < size, m e = 10
    · -- the first newline
      have hex : ∃ e, m e = 10 := ⟨_, hend.choose_spec.2⟩
      have he := Nat.find_spec hex
      have hfirst : ∀ i < Nat.find hex, m i ≠ 10 := fun i hi => Nat.find_min hex hi
      have hsize : Nat.find hex < size :=
        (Nat.find_min' hex hend.choose_spec.2).trans_lt hend.choose_spec.1
      rw [parseLoop_cut he hfirst hsize] at h
      refine ⟨Nat.find hex, hsize, he, hfirst, ?_⟩
      by_cases hmax : (wordStarts m (Nat.find hex)).length ≤ maxargs
      · rw [if_pos hmax] at h
        cases hw : wordStarts m (Nat.find hex) with
        | nil => rw [hw] at h; cases h
        | cons name rest => exact ⟨Nat.succ_le_succ (Nat.zero_le _), hw ▸ hmax⟩
      · rw [if_neg hmax] at h
        cases h
    · obtain ⟨fault, hfault⟩ := parseLoop_endless (m := m) (c := 0) (n := size) fun i hi h10 =>
        hend ⟨i, by omega, h10⟩
      rw [blanked_zero] at hfault
      rw [show parseLoop size m 0 [] = .error fault from hfault] at h
      cases h
  · rintro ⟨e, hsize, he, hline, hpos, hmax⟩
    exact ⟨_, parsecmd_line he hline hsize hpos hmax⟩

/-! ## The lines that `getcmd` reads -/

theorem length_getsLoop_le (n : ℕ) (input : List UInt8) : (getsLoop n input).length ≤ n := by
  induction n generalizing input with
  | zero => exact le_rfl
  | succ n ih =>
    cases input with
    | nil => exact Nat.zero_le _
    | cons c input =>
      rw [getsLoop]
      split
      · exact Nat.succ_le_succ (Nat.zero_le n)
      · exact Nat.succ_le_succ (ih input)

/-- `gets` stops behind a newline. -/
theorem getsLoop_newline {input line rest : List UInt8}
    (h : getsLoop n input = line ++ 10 :: rest) : rest = [] := by
  induction n generalizing input line with
  | zero => exact absurd h (by simp [getsLoop])
  | succ n ih =>
    cases input with
    | nil => exact absurd h (by simp [getsLoop])
    | cons c input =>
      rw [getsLoop] at h
      cases line with
      | nil =>
        split at h
        · exact (List.cons.inj h).2.symm
        · rename_i hno
          exact absurd (Or.inl (List.cons.inj h).1) hno
      | cons b line =>
        split at h
        · simp at h
        · exact ih (List.cons.inj h).2

theorem wordStarts_congr {m' : Mem} (h : ∀ i < n, m i = m' i) :
    wordStarts m n = wordStarts m' n := by
  refine filter_congr fun i hi => ?_
  have hi := mem_range.1 hi
  unfold wordStart
  rw [h i hi, h (i - 1) (by omega)]

theorem ofList_append {l l' : List UInt8} {i : ℕ} (h : i < l.length) :
    ofList (l ++ l') i = ofList l i := getD_append l l' 0 i h

/-- A list cut at one of its elements. -/
theorem eq_take_cons_drop {l : List UInt8} {i : ℕ} {b : UInt8} (hi : i < l.length)
    (hb : ofList l i = b) : l = l.take i ++ b :: l.drop (i + 1) := by
  rw [ofList, getD_eq_getElem _ _ hi] at hb
  rw [← hb, getElem_cons_drop, take_append_drop]

/-- **Which lines are safe.** `gets` must have stopped at a newline, and there must be a place in
`argv` for every word, but also one word at least. -/
theorem parsecmd_safe_iff (input : List UInt8) {buf : Mem} (h : getcmd input = some buf) :
    (∃ r, parsecmd maxCmLen buf = .ok r) ↔
      ∃ line, gets input maxCmLen = line ++ [10] ∧
        1 ≤ (wordStarts (ofList line) line.length).length ∧
        (wordStarts (ofList line) line.length).length ≤ maxargs := by
  obtain ⟨-, h⟩ := Option.ite_none_left_eq_some.1 h
  have hlength := length_getsLoop_le (maxCmLen - 1) input
  have hnewline := @getsLoop_newline (maxCmLen - 1) input
  rw [show getsLoop (maxCmLen - 1) input = gets input maxCmLen from rfl] at hlength hnewline
  rw [parsecmd_ok_iff, ← Option.some.inj h]
  generalize gets input maxCmLen = bytes at hlength hnewline
  have hsame : ∀ line rest : List UInt8, wordStarts (ofList (line ++ rest)) line.length =
      wordStarts (ofList line) line.length := fun line rest =>
    wordStarts_congr fun i hi => ofList_append hi
  constructor
  · rintro ⟨e, -, he, -, hwords⟩
    have hlt : e < bytes.length := by
      by_contra hge
      rw [ofList, getD_eq_default _ _ (by omega)] at he
      cases he
    have hsplit := eq_take_cons_drop hlt he
    have hend := hnewline hsplit
    rw [hend] at hsplit
    have htake : (bytes.take e).length = e := by rw [length_take]; omega
    have hstarts := hsame (bytes.take e) [10]
    rw [← hsplit, htake] at hstarts
    refine ⟨bytes.take e, hsplit, ?_⟩
    rwa [htake, ← hstarts]
  · rintro ⟨line, rfl, hwords⟩
    rw [length_append, length_singleton] at hlength
    refine ⟨line.length, by omega, ?_, fun i hi h10 => ?_, ?_⟩
    · rw [ofList, getD_append_right _ _ _ _ le_rfl, Nat.sub_self]
      rfl
    · -- an earlier newline would have been the end
      rw [ofList_append hi] at h10
      have hsplit : line ++ [10] = line.take i ++ 10 :: (line.drop (i + 1) ++ [10]) := by
        rw [← cons_append, ← append_assoc, ← eq_take_cons_drop hi h10]
      exact absurd (hnewline hsplit) (by simp)
    · rwa [hsame]

/-- A blank line, a line of four words and a line that `gets` has cut. -/
theorem parsecmd_unsafe :
    (getcmd [32, 10]).any (fun buf => parsecmd maxCmLen buf matches .error .null) ∧
    (getcmd [97, 32, 97, 32, 97, 32, 97, 10]).any
      (fun buf => parsecmd maxCmLen buf matches .error .argv) ∧
    (getcmd (List.replicate 200 97)).any
      (fun buf => parsecmd maxCmLen buf matches .error .buffer) := by
  decide +kernel

/-- A line of one word is safe. -/
theorem parsecmd_safe_help :
    ∃ buf, getcmd [104, 101, 108, 112, 10] = some buf ∧ ∃ r, parsecmd maxCmLen buf = .ok r :=
  ⟨_, rfl, (parsecmd_safe_iff [104, 101, 108, 112, 10] rfl).2
    ⟨[104, 101, 108, 112], by decide, by decide, by decide⟩⟩

/-! ## The words -/

/-- The words of a line. -/
def words (line : List UInt8) : List (List UInt8) := (line.splitOn 32).filter (· ≠ [])

/-- The first piece of a line is what stands before its first space. -/
theorem splitOn_eq (l : List UInt8) :
    l.splitOn 32 = l.takeWhile (· ≠ 32) :: (l.splitOn 32).tail := by
  induction l with
  | nil => rfl
  | cons b l ih =>
    unfold List.splitOn at ih ⊢
    rw [splitOnP_cons_eq_if_modifyHead, takeWhile_cons]
    by_cases hb : b = 32
    · simp [hb]
    · rw [if_neg (by simpa using hb), if_pos (by simpa using hb), ih]
      rfl

/-- A word starts at offset `i` of a line behind a blank, or behind a letter. -/
def startAfter (blank : Bool) (l : List UInt8) (i : ℕ) : Bool :=
  ofList l i ≠ 32 && (if i = 0 then blank else ofList l (i - 1) = 32)

theorem startAfter_succ (blank : Bool) (b : UInt8) (l : List UInt8) (i : ℕ) :
    startAfter blank (b :: l) (i + 1) = startAfter (b = 32) l i := by
  cases i <;> rfl

/-- **The starts are those of the words.** Behind a letter, the first piece belongs to a word that
has started before. -/
theorem map_starts (blank : Bool) (l : List UInt8) :
    ((List.range l.length).filter (startAfter blank l)).map
        (fun p => (l.drop p).takeWhile (· ≠ 32)) =
      if blank then words l else (l.splitOn 32).tail.filter (· ≠ []) := by
  induction l generalizing blank with
  | nil => cases blank <;> rfl
  | cons b l ih =>
    have htail : ((List.map Nat.succ (List.range l.length)).filter (startAfter blank (b :: l))).map
        (fun p => ((b :: l).drop p).takeWhile (· ≠ 32)) =
        if b = 32 then words l else (l.splitOn 32).tail.filter (· ≠ []) := by
      rw [filter_map, map_map]
      have hstart : startAfter blank (b :: l) ∘ Nat.succ = startAfter (b = 32) l :=
        funext fun i => startAfter_succ blank b l i
      rw [hstart]
      have hrest := ih (decide (b = 32))
      simp only [decide_eq_true_eq] at hrest
      exact hrest
    rw [length_cons, range_succ_eq_map, filter_cons]
    by_cases hb : b = 32
    · -- a space ends the piece before it
      have hsplit : (b :: l).splitOn 32 = [] :: l.splitOn 32 := by
        unfold List.splitOn
        rw [splitOnP_cons_eq_if_modifyHead, if_pos (by simpa using hb)]
      rw [if_neg (by simp [startAfter, ofList, hb]), htail, if_pos hb, words, words, hsplit]
      cases blank <;> simp
    · have hsplit : (b :: l).splitOn 32 = (b :: l.takeWhile (· ≠ 32)) :: (l.splitOn 32).tail := by
        have hl := splitOn_eq l
        unfold List.splitOn at hl ⊢
        rw [splitOnP_cons_eq_if_modifyHead, if_neg (by simpa using hb), hl]
        rfl
      cases blank with
      | true =>
        rw [if_pos (by simp [startAfter, ofList, hb]), map_cons, htail, if_neg hb, if_pos rfl,
          words, hsplit, filter_cons, if_pos (by simp), drop_zero, takeWhile_cons,
          if_pos (by simpa using hb)]
      | false =>
        rw [if_neg (by simp [startAfter]), htail, if_neg hb, if_neg Bool.false_ne_true, hsplit]
        rfl

/-- A line without zeros in a buffer, and what follows its newline. -/
abbrev lineBuf (line rest : List UInt8) : Mem := ofList (line ++ 10 :: rest)

theorem wordStarts_line {line : List UInt8} (rest : List UInt8) (hline : ∀ b ∈ line, b ≠ 0) :
    wordStarts (lineBuf line rest) line.length =
      (List.range line.length).filter (startAfter true line) := by
  rw [wordStarts_congr fun i hi => ofList_append hi]
  refine filter_congr fun i hi => ?_
  have hi := mem_range.1 hi
  have hne : ofList line (i - 1) ≠ 0 := by
    rw [ofList, getD_eq_getElem _ _ (by omega)]
    exact hline _ (getElem_mem _)
  unfold wordStart startAfter
  by_cases hi0 : i = 0
  · simp [hi0]
  · simp [hi0, hne]

/-- Behind the loop, a word ends where its space was, or where the newline was. -/
theorem hasString_cut (rest l : List UInt8) (pre : List UInt8) (hl : ∀ b ∈ l, b ≠ 0) :
    HasString (pre ++ l ++ 10 :: rest).length (cut (lineBuf (pre ++ l) rest) (pre ++ l).length)
      pre.length (l.takeWhile (· ≠ 32)) := by
  induction l generalizing pre with
  | nil =>
    refine .nil (by simp) ?_
    rw [append_nil]
    exact update_self _ _ _
  | cons b l ih =>
    have hlt : pre.length < (pre ++ b :: l).length := by simp
    have hbyte : lineBuf (pre ++ b :: l) rest pre.length = b := by
      rw [lineBuf, ofList_append hlt, ofList, getD_append_right _ _ _ _ le_rfl, Nat.sub_self]
      rfl
    have hcut : cut (lineBuf (pre ++ b :: l) rest) (pre ++ b :: l).length pre.length =
        if b = 32 then 0 else b := by
      rw [cut, update_of_ne hlt.ne, blanked, hbyte]
      simp
    rw [takeWhile_cons]
    by_cases hb : b = 32
    · rw [if_neg (by simp [hb])]
      refine .nil (by simp) ?_
      rw [hcut, if_pos hb]
    · rw [if_pos (by simpa using hb)]
      refine .cons (by rw [hcut, if_neg hb]) (hl b mem_cons_self) ?_
      have hrest := ih (pre ++ [b]) fun x hx => hl x (mem_cons_of_mem b hx)
      rwa [append_assoc pre [b] l, singleton_append,
        show (pre ++ [b]).length = pre.length + 1 by simp] at hrest

/-- **A line is cut into its words.** -/
theorem parsecmd_tokens {line : List UInt8} (rest : List UInt8)
    (hline : ∀ b ∈ line, b ≠ 0 ∧ b ≠ 10) (hpos : 1 ≤ (words line).length)
    (hmax : (words line).length ≤ maxargs) :
    ∃ m cmd, parsecmd (line ++ 10 :: rest).length (lineBuf line rest) = .ok (m, cmd) ∧
      cmd.argc = (words line).length ∧
      cmd.argv.map (cstring (line ++ 10 :: rest).length m) = words line ∧
      cmd.type = commandOf ((words line).headD []) := by
  have hstarts := wordStarts_line rest fun b hb => (hline b hb).1
  have hwords : (wordStarts (lineBuf line rest) line.length).map
      (cstring (line ++ 10 :: rest).length (cut (lineBuf line rest) line.length)) = words line := by
    have hmap := map_starts true line
    rw [if_pos rfl, ← hstarts] at hmap
    refine Eq.trans (map_congr_left fun p hp => ?_) hmap
    have hp : p ≤ line.length := (mem_range.1 (mem_filter.1 hp).1).le
    have hcut := hasString_cut rest (line.drop p) (line.take p) fun b hb =>
      (hline b (mem_of_mem_drop hb)).1
    rw [take_append_drop, length_take_of_le hp] at hcut
    exact hcut.cstring_eq
  have hlength : (wordStarts (lineBuf line rest) line.length).length = (words line).length := by
    rw [← hwords, length_map]
  have hend : lineBuf line rest line.length = 10 := by
    rw [lineBuf, ofList, getD_append_right _ _ _ _ le_rfl, Nat.sub_self]
    rfl
  have hfirst : ∀ i < line.length, lineBuf line rest i ≠ 10 := by
    intro i hi
    rw [lineBuf, ofList_append hi, ofList, getD_eq_getElem _ _ hi]
    exact (hline _ (getElem_mem _)).2
  refine ⟨_, _, parsecmd_line hend hfirst (by simp) (hlength ▸ hpos) (hlength ▸ hmax), hlength,
    hwords, ?_⟩
  dsimp only
  rw [← hwords]
  cases hw : wordStarts (lineBuf line rest) line.length with
  | nil => rw [hw] at hlength; exact absurd hpos (by rw [← hlength]; decide)
  | cons name names => rfl

/-- `  open a.wav `, with spaces on all sides. -/
theorem parsecmd_tokens_open :
    words [32, 32, 111, 112, 101, 110, 32, 97, 32] = [[111, 112, 101, 110], [97]] ∧
    ∃ m cmd, parsecmd 10 (lineBuf [32, 32, 111, 112, 101, 110, 32, 97, 32] []) = .ok (m, cmd) ∧
      cmd.argc = 2 ∧ cmd.type = .open := by
  obtain ⟨m, cmd, hrun, hargc, -, htype⟩ := @parsecmd_tokens
    [32, 32, 111, 112, 101, 110, 32, 97, 32] [] (by simp) (by decide +kernel)
    (by decide +kernel)
  exact ⟨by decide +kernel, m, cmd, hrun, hargc, htype⟩

/-! ## Numbers -/

/-- The number a string of digits stands for. -/
def decimal (s : List Char) : ℕ := s.foldl (fun n c => n * 10 + digit c) 0

theorem int32_step (n : ℤ) (d : ℕ) : int32 (int32 n * 10 + d) = int32 (n * 10 + d) := by
  unfold int32
  rw [BitVec.toInt_ofInt, BitVec.toInt_ofInt, BitVec.toInt_ofInt, Int.bmod_def, Int.bmod_def,
    Int.bmod_def]
  omega

/-- `atoi` loses what does not fit into 32 bits. -/
theorem atoi_eq {s : List Char} (h : ∀ c ∈ s, isDigit c = true) : atoi s = int32 (decimal s) := by
  have hgo : ∀ (s : List Char) (n : ℕ), (∀ c ∈ s, isDigit c = true) →
      atoi.go (int32 n) s = int32 (s.foldl (fun n c => n * 10 + digit c) n : ℕ) := by
    intro s
    induction s with
    | nil => intro n _; rfl
    | cons c s ih =>
      intro n hs
      rw [atoi.go, if_pos (hs c mem_cons_self), int32_step]
      have := ih (n * 10 + digit c) fun x hx => hs x (mem_cons_of_mem c hx)
      push_cast at this
      exact this
  exact hgo s 0 h

/-- **Which numbers the volume command honours.** A number above the scale is refused, and changes
nothing, unless it falls back into the scale when it is cut to 32 bits. -/
theorem volume_command_iff (p : Player) {s : List Char} (hs : ∀ c ∈ s, isDigit c = true)
    (hmax : 0 ≤ p.apinfo.maxVolume) (hmax' : p.apinfo.maxVolume < 2 ^ 31) :
    let r := p.apSetVolume (atoi s)
    ((r.2 = 0 ↔ (decimal s : ℤ) ≤ p.apinfo.maxVolume) ∧
      (r.2 ≠ 0 → r.1.codec = p.codec ∧ r.1.apinfo.volume = p.apinfo.volume)) ↔
    decimal s < 2 ^ 32 ∨ p.apinfo.maxVolume < (decimal s % 2 ^ 32 : ℕ) := by
  have hval : atoi s = if decimal s % 2 ^ 32 < 2 ^ 31 then ((decimal s % 2 ^ 32 : ℕ) : ℤ)
      else (decimal s % 2 ^ 32 : ℕ) - 2 ^ 32 := by
    rw [atoi_eq hs, int32, BitVec.toInt_ofInt, Int.bmod_def]
    split <;> split <;> omega
  dsimp only
  unfold Player.apSetVolume
  by_cases hin : atoi s ≥ 0 ∧ atoi s ≤ p.apinfo.maxVolume
  · rw [if_neg (not_not.2 hin)]
    have hiff : (decimal s : ℤ) ≤ p.apinfo.maxVolume ↔ decimal s < 2 ^ 32 := by
      rw [hval] at hin
      split at hin <;> omega
    have hlow : ¬ p.apinfo.maxVolume < (decimal s % 2 ^ 32 : ℕ) := by
      rw [hval] at hin
      split at hin <;> omega
    rw [hiff, or_iff_left hlow]
    exact ⟨fun h => h.1.1 rfl, fun h => ⟨⟨fun _ => h, fun _ => rfl⟩, fun h0 => absurd rfl h0⟩⟩
  · rw [if_pos hin]
    have hover : ¬ (decimal s : ℤ) ≤ p.apinfo.maxVolume := by
      intro hle
      refine hin ?_
      rw [hval]
      split <;> omega
    have hcond : decimal s < 2 ^ 32 ∨ p.apinfo.maxVolume < (decimal s % 2 ^ 32 : ℕ) := by
      rw [hval] at hin
      split at hin <;> omega
    exact ⟨fun _ => hcond, fun _ => ⟨⟨fun h => absurd h (show ¬ (-1 : ℤ) = 0 by decide),
      fun h => absurd h hover⟩, fun _ => ⟨rfl, rfl⟩⟩⟩

/-- 2^32 is accepted, and mutes. -/
theorem volume_command_wraps :
    decimal "4294967296".toList = 2 ^ 32 ∧ Player.fresh.apinfo.maxVolume = 100 ∧
      (Player.fresh.apSetVolume (atoi "4294967296".toList)).2 = 0 ∧
      (Player.fresh.apSetVolume (atoi "4294967296".toList)).1.codec.volume = muteVolume := by
  decide +kernel

/-- 101 is refused. -/
theorem volume_command_refused :
    ¬ (Player.fresh.apSetVolume (atoi "101".toList)).2 = 0 := by
  have h := (@volume_command_iff Player.fresh "101".toList
    (all_eq_true.1 (by decide +kernel)) (by decide) (by decide)).2 (Or.inl (by decide +kernel))
  rw [h.1]
  decide +kernel

end AudioPlayer
