import AudioPlayer.Proof.Command
import AudioPlayer.Spec.ShellGrammar

/-!
# The tokens of a line (`user/sh.c`)

`gettoken` and `peek` see the tokens of the line one by one: with `p` the position, `peek` looks at
the first token of `tokens m es p` (`peek_spec`) and `gettoken` takes it away (`gettoken_cons`).
-/

namespace AudioPlayer.Sh

open List Bytes

/-- The line from `lo` on ends at `es`. -/
structure EndsAt (m : Mem) (lo es : ℕ) : Prop where
  final : m es = 0
  nonzero : ∀ i, lo ≤ i → i < es → m i ≠ 0

variable {m : Mem} {lo es p : ℕ}

/-! ## Loops -/

section Scan

variable {f : UInt8 → Bool}

theorem scan_end (hp : es ≤ p) : scan m es f p = p := by
  rw [scan, Nat.sub_eq_zero_of_le hp]
  rfl

theorem scan_true (hp : p < es) (h : f (m p) = true) : scan m es f p = scan m es f (p + 1) := by
  obtain ⟨n, hn⟩ : ∃ n, es - p = n + 1 := ⟨es - p - 1, by omega⟩
  rw [scan, scan, hn, scanLoop, if_pos h, show es - (p + 1) = n by omega]

theorem scan_false (h : f (m p) = false) : scan m es f p = p := by
  rw [scan]
  cases es - p with
  | zero => rfl
  | succ n => rw [scanLoop, if_neg (by rw [h]; decide)]

/-- What a loop over a line has passed, and why it stops. -/
theorem scan_spec (hp : p ≤ es) :
    p ≤ scan m es f p ∧ scan m es f p ≤ es ∧ (∀ i, p ≤ i → i < scan m es f p → f (m i) = true) ∧
      (scan m es f p < es → f (m (scan m es f p)) = false) := by
  induction hk : es - p generalizing p with
  | zero =>
    rw [scan_end (by omega)]
    exact ⟨le_rfl, hp, fun i _ _ => by omega, fun _ => by omega⟩
  | succ k ih =>
    cases hf : f (m p) with
    | false =>
      rw [scan_false hf]
      exact ⟨le_rfl, hp, fun i _ _ => by omega, fun _ => hf⟩
    | true =>
      rw [scan_true (by omega) hf]
      obtain ⟨h1, h2, h3, h4⟩ := ih (p := p + 1) (by omega) (by omega)
      refine ⟨by omega, h2, fun i hi hlt => ?_, h4⟩
      rcases eq_or_lt_of_le hi with rfl | hi
      · exact hf
      · exact h3 i hi hlt

theorem length_takeWhile_slice (hp : p ≤ es) :
    p + ((slice m p (es - p)).takeWhile f).length = scan m es f p := by
  induction hk : es - p generalizing p with
  | zero =>
    rw [scan_end (by omega)]
    rfl
  | succ k ih =>
    rw [slice_succ]
    cases hf : f (m p) with
    | false =>
      rw [scan_false hf, takeWhile_cons_of_neg (by rw [hf]; decide)]
      rfl
    | true =>
      rw [scan_true (by omega) hf, takeWhile_cons_of_pos hf, length_cons]
      have := ih (p := p + 1) (by omega) (by omega)
      omega

end Scan

/-! ## Tokens -/

theorem lex_drop (k p : ℕ) (cs : List UInt8) : lex k p cs = lex 0 (p + k) (cs.drop k) := by
  induction k generalizing p cs with
  | zero => rfl
  | succ k ih =>
    cases cs with
    | nil => rw [lex, drop_nil, lex]
    | cons c cs =>
      rw [lex, ih, drop_succ_cons]
      congr 1
      omega

theorem drop_slice (m : Mem) (p n k : ℕ) : (slice m p n).drop k = slice m (p + k) (n - k) := by
  induction k generalizing p n with
  | zero => rfl
  | succ k ih =>
    cases n with
    | zero =>
      rw [Nat.zero_sub]
      exact drop_nil
    | succ n =>
      rw [slice_succ, drop_succ_cons, ih, Nat.succ_sub_succ, add_assoc, add_comm 1]

theorem tokens_end (hp : es ≤ p) : tokens m es p = [] := by
  rw [tokens, Nat.sub_eq_zero_of_le hp]
  rfl

/-- The tokens behind the first `k` bytes. -/
theorem lex_slice (m : Mem) (es p k : ℕ) : lex k p (slice m p (es - p)) = tokens m es (p + k) := by
  rw [lex_drop, drop_slice, tokens]
  congr 2
  omega

theorem slice_pos (hp : p < es) : slice m p (es - p) = m p :: slice m (p + 1) (es - (p + 1)) := by
  rw [show es - p = es - (p + 1) + 1 by omega, slice_succ]

theorem tokens_white (hp : p < es) (h : m p ∈ whitespace) : tokens m es p = tokens m es (p + 1) := by
  rw [tokens, slice_pos hp, lex, if_pos h]
  rfl

/-- White space is between tokens. -/
theorem tokens_skip (hp : p ≤ es) : tokens m es (skip m es p) = tokens m es p := by
  induction hk : es - p generalizing p with
  | zero => rw [skip, scan_end (by omega)]
  | succ k ih =>
    by_cases hw : m p ∈ whitespace
    · have hstep : skip m es p = skip m es (p + 1) := scan_true (by omega) (decide_eq_true hw)
      rw [hstep, ih (by omega) (by omega), tokens_white (by omega) hw]
    · rw [skip, scan_false (decide_eq_false hw)]

/-- What `gettoken` returns for a token. -/
def Token.code : Token → UInt8
  | .bar => 124
  | .lpar => 40
  | .rpar => 41
  | .semi => 59
  | .amp => 38
  | .lt => 60
  | .gt => 62
  | .gtgt => 43
  | .word _ _ => 97

/-- What `peek` sees of a token: the symbol it begins with. -/
def Token.first : Token → Option UInt8
  | .gtgt => some 62
  | .word _ _ => none
  | t => some t.code

theorem symbols_eq : symbols = [60, 124, 62, 38, 59, 40, 41] := by decide

theorem singles_eq : ascii "|();&<" = [124, 40, 41, 59, 38, 60] := by decide

/-- A token of one byte. -/
theorem lex_single {c : UInt8} (hc : c ∈ ascii "|();&<") (p : ℕ) (cs : List UInt8) :
    ∃ t : Token, lex 0 p (c :: cs) = t :: lex 0 (p + 1) cs ∧ t.code = c ∧ t.first = some c := by
  rw [singles_eq] at hc
  simp only [mem_cons, not_mem_nil, or_false] at hc
  rcases hc with rfl | rfl | rfl | rfl | rfl | rfl
  · exact ⟨.bar, rfl, rfl, rfl⟩
  · exact ⟨.lpar, rfl, rfl, rfl⟩
  · exact ⟨.rpar, rfl, rfl, rfl⟩
  · exact ⟨.semi, rfl, rfl, rfl⟩
  · exact ⟨.amp, rfl, rfl, rfl⟩
  · exact ⟨.lt, rfl, rfl, rfl⟩

/-- A word. -/
theorem lex_word {c : UInt8} (hc : wordChar c = true) (p : ℕ) (cs : List UInt8) :
    lex 0 p (c :: cs) = .word p (p + ((c :: cs).takeWhile wordChar).length) ::
      lex ((c :: cs).takeWhile wordChar).length p (c :: cs) := by
  obtain ⟨hwhite, hsym⟩ : c ∉ whitespace ∧ c ∉ symbols := by
    simpa [wordChar] using hc
  rw [symbols_eq] at hsym
  simp only [mem_cons, not_mem_nil, or_false, not_or] at hsym
  obtain ⟨h1, h2, h3, h4, h5, h6, h7⟩ := hsym
  rw [takeWhile_cons_of_pos hc, length_cons, lex, lex, if_neg hwhite, if_neg h2, if_neg h6, if_neg h7,
    if_neg h5, if_neg h4, if_neg h1, if_neg h3]
  dsimp only
  rw [add_assoc p 1, add_comm 1]

/-- The first token, at its first byte. -/
structure FirstToken (m : Mem) (es q : ℕ) (t : Token) (eq : ℕ) : Prop where
  tokens : tokens m es q = t :: tokens m es eq
  lt : q < eq
  le : eq ≤ es
  word : ∀ a b, t = .word a b → a = q ∧ b = eq ∧ b = wordEnd m es a
  first : t.first = if m q ∈ symbols then some (m q) else none

/-- **The `switch` of `gettoken`** reads the first token. -/
theorem readToken_spec (h : EndsAt m lo es) {q : ℕ} (hlo : lo ≤ q) (hq : q < es) (hwhite : m q ∉ whitespace) :
    ∃ t eq, readToken m es q = (t.code, eq) ∧ FirstToken m es q t eq := by
  have hne := h.nonzero q hlo hq
  unfold readToken
  rw [if_neg hne]
  by_cases hsingle : m q ∈ ascii "|();&<"
  · obtain ⟨t, hlex, hcode, hfirst⟩ := lex_single hsingle q (slice m (q + 1) (es - (q + 1)))
    rw [if_pos hsingle, ← hcode]
    refine ⟨t, q + 1, rfl, ?_, by omega, hq, ?_, ?_⟩
    · rw [Sh.tokens, slice_pos hq, hlex]
      rfl
    · rintro a b rfl
      cases hfirst
    · rw [hfirst, if_pos]
      rw [singles_eq] at hsingle
      rw [symbols_eq]
      simp only [mem_cons, not_mem_nil, or_false] at hsingle ⊢
      tauto
  rw [if_neg hsingle]
  by_cases hgt : m q = 62
  · rw [if_pos hgt]
    have hlex : lex 0 q (slice m q (es - q)) =
        if (slice m (q + 1) (es - (q + 1))).head? = some 62 then .gtgt :: lex 1 (q + 1) (slice m (q + 1) (es - (q + 1)))
        else .gt :: lex 0 (q + 1) (slice m (q + 1) (es - (q + 1))) := by
      rw [slice_pos hq, hgt]
      rfl
    have hsym : (if m q ∈ symbols then some (m q) else none) = some 62 := by
      rw [hgt]
      rfl
    by_cases hgtgt : m (q + 1) = 62
    · -- the second one is before the end, which is 0
      have hlt : q + 1 < es := by
        rcases eq_or_lt_of_le (show q + 1 ≤ es from hq) with heq | hlt
        · rw [heq, h.final] at hgtgt
          cases hgtgt
        · exact hlt
      rw [if_pos hgtgt]
      refine ⟨.gtgt, q + 2, rfl, ?_, by omega, hlt, (fun a b hab => by cases hab), hsym.symm⟩
      rw [Sh.tokens, hlex, if_pos (by rw [slice_pos hlt, hgtgt]; rfl), lex_slice]
    · rw [if_neg hgtgt]
      refine ⟨.gt, q + 1, rfl, ?_, by omega, hq, (fun a b hab => by cases hab), hsym.symm⟩
      rw [Sh.tokens, hlex, if_neg ?_, lex_slice]
      intro hhead
      rcases eq_or_lt_of_le (show q + 1 ≤ es from hq) with heq | hlt
      · rw [heq, Nat.sub_self] at hhead
        cases hhead
      · rw [slice_pos hlt] at hhead
        exact hgtgt (Option.some.inj hhead)
  · rw [if_neg hgt]
    have hsym : m q ∉ symbols := by
      rw [singles_eq] at hsingle
      rw [symbols_eq]
      simp only [mem_cons, not_mem_nil, or_false] at hsingle ⊢
      tauto
    have hchar : wordChar (m q) = true := by
      simp [wordChar, hwhite, hsym]
    have hend : q + ((slice m q (es - q)).takeWhile wordChar).length = wordEnd m es q := length_takeWhile_slice hq.le
    have hspec := scan_spec (m := m) (f := wordChar) hq.le
    refine ⟨.word q (wordEnd m es q), wordEnd m es q, rfl, ?_, ?_, hspec.2.1, fun a b hab => ?_, ?_⟩
    · rw [Sh.tokens, slice_pos hq, lex_word hchar, ← slice_pos hq, hend, lex_slice, hend]
    · rw [← hend, slice_pos hq, takeWhile_cons_of_pos hchar, length_cons]
      omega
    · cases hab
      exact ⟨rfl, rfl, rfl⟩
    · rw [if_neg hsym]
      rfl

/-! ## `peek` and `gettoken` -/

/-- A position in the line. -/
def Within (lo es p : ℕ) : Prop := lo ≤ p ∧ p ≤ es

theorem Within.skip (hp : Within lo es p) : Within lo es (skip m es p) := by
  obtain ⟨h1, h2, -⟩ := scan_spec (m := m) (f := fun c => decide (c ∈ whitespace)) hp.2
  exact ⟨hp.1.trans h1, h2⟩

/-- Behind white space comes a token, or the end. -/
theorem skip_cases (h : EndsAt m lo es) (hp : Within lo es p) :
    (tokens m es p = [] ∧ skip m es p = es) ∨
      ∃ t eq, readToken m es (skip m es p) = (t.code, eq) ∧ FirstToken m es (skip m es p) t eq ∧
        tokens m es p = t :: tokens m es eq := by
  have hskip := hp.skip (m := m)
  have htokens := tokens_skip (m := m) hp.2
  obtain ⟨-, -, -, hstop⟩ := scan_spec (m := m) (f := fun c => decide (c ∈ whitespace)) hp.2
  rcases eq_or_lt_of_le hskip.2 with heq | hlt
  · left
    rw [← htokens, heq, tokens_end le_rfl]
    exact ⟨rfl, rfl⟩
  · right
    obtain ⟨t, eq, hread, hfirst⟩ := readToken_spec h hskip.1 hlt (of_decide_eq_false (hstop hlt))
    exact ⟨t, eq, hread, hfirst, htokens.symm.trans hfirst.tokens⟩

/-- Whether a token begins with one of some symbols. -/
def Token.oneOf (toks : String) (t : Token) : Bool := t.first.any (· ∈ ascii toks)

/-- Whether the first token does. -/
def nextIs (toks : String) (ts : List Token) : Bool := ts.head?.any (Token.oneOf toks)

@[simp] theorem nextIs_nil (toks : String) : nextIs toks [] = false := rfl

@[simp] theorem nextIs_cons (toks : String) (t : Token) (ts : List Token) : nextIs toks (t :: ts) = t.oneOf toks := rfl

/-- The end of the line, or one of some symbols. -/
def Stops (toks : String) (ts : List Token) : Prop := ts = [] ∨ nextIs toks ts = true

/-- It is none of others then. -/
theorem Stops.nextIs_eq_false {toks others : String} {ts : List Token} (h : Stops toks ts)
    (hdisj : (ascii toks).all (fun c => !(ascii others).contains c) = true) : nextIs others ts = false := by
  rcases h with rfl | h
  · rfl
  · cases ts with
    | nil => rfl
    | cons t ts =>
      rw [nextIs_cons, Token.oneOf] at h ⊢
      cases hfirst : t.first with
      | none => rfl
      | some c =>
        rw [hfirst] at h
        have hnot := all_eq_true.1 hdisj c (of_decide_eq_true h)
        rw [Bool.not_eq_true', contains_eq_mem] at hnot
        exact hnot

/-- **`peek`** looks at the first token. -/
theorem peek_spec (h : EndsAt m lo es) (hp : Within lo es p) {toks : String}
    (htoks : (ascii toks).all symbols.contains = true) :
    peek m es toks p = (skip m es p, nextIs toks (tokens m es p)) := by
  unfold peek
  dsimp only
  rcases skip_cases h hp with ⟨hnil, hend⟩ | ⟨t, eq, -, hfirst, hcons⟩
  · rw [hnil, hend, h.final]
    rfl
  · have hskip := hp.skip (m := m)
    have hne := h.nonzero _ hskip.1 (hfirst.lt.trans_le hfirst.le)
    rw [hcons]
    refine Prod.ext rfl ?_
    show (m (skip m es p) ≠ 0 && m (skip m es p) ∈ ascii toks : Bool) = Token.oneOf toks t
    rw [Token.oneOf, hfirst.first]
    by_cases hsym : m (skip m es p) ∈ symbols
    · simp [hne, hsym]
    · have hnot : m (skip m es p) ∉ ascii toks := fun hin =>
        hsym (contains_iff_mem.1 (all_eq_true.1 htoks _ hin))
      simp [hsym, hnot]

/-- **`gettoken`** at the end of the line. -/
theorem gettoken_nil (h : EndsAt m lo es) (hp : Within lo es p) (hnil : tokens m es p = []) :
    gettoken m es p = (0, es, es, es) := by
  rcases skip_cases h hp with ⟨-, hend⟩ | ⟨t, eq, -, -, hcons⟩
  · have hread : readToken m es es = (0, es) := if_pos h.final
    unfold gettoken
    dsimp only
    rw [hend, hread]
    dsimp only
    rw [skip, scan_end le_rfl]
  · rw [hnil] at hcons
    cases hcons

/-- **`gettoken`** takes the first token. -/
theorem gettoken_cons (h : EndsAt m lo es) (hp : Within lo es p) {t : Token} {ts : List Token}
    (hcons : tokens m es p = t :: ts) :
    ∃ q eq p', gettoken m es p = (t.code, q, eq, p') ∧ Within lo es p' ∧ tokens m es p' = ts ∧
      ∀ a b, t = .word a b → a = q ∧ b = eq := by
  rcases skip_cases h hp with ⟨hnil, -⟩ | ⟨t', eq, hread, hfirst, hcons'⟩
  · rw [hnil] at hcons
    cases hcons
  · obtain ⟨rfl, rfl⟩ := List.cons.inj (hcons.symm.trans hcons')
    have heq : Within lo es eq := ⟨(hp.skip (m := m)).1.trans hfirst.lt.le, hfirst.le⟩
    refine ⟨skip m es p, eq, skip m es eq, ?_, heq.skip, tokens_skip hfirst.le, fun a b hab => ?_⟩
    · unfold gettoken
      dsimp only
      rw [hread]
    · obtain ⟨ha, hb, -⟩ := hfirst.word a b hab
      exact ⟨ha, hb⟩

/-! ## Words -/

/-- A word of the line, as long as it can be. -/
structure IsWord (m : Mem) (lo es q eq : ℕ) : Prop where
  low : lo ≤ q
  high : eq ≤ es
  le : q ≤ eq
  chars : ∀ i, q ≤ i → i < eq → wordChar (m i) = true
  stop : eq < es → wordChar (m eq) = false

/-- Every word token is one. -/
theorem isWord_of_mem (h : EndsAt m lo es) (hp : Within lo es p) {q eq : ℕ} (hmem : .word q eq ∈ tokens m es p) :
    IsWord m lo es q eq := by
  induction hk : es - p using Nat.strong_induction_on generalizing p with
  | _ k ih =>
    rcases skip_cases h hp with ⟨hnil, -⟩ | ⟨t, eq', -, hfirst, hcons⟩
    · rw [hnil] at hmem
      cases hmem
    · have hskip := hp.skip (m := m)
      have hstart := (scan_spec (m := m) (f := fun c => decide (c ∈ whitespace)) hp.2).1
      rw [hcons] at hmem
      rcases mem_cons.1 hmem with heq | hmem
      · obtain ⟨rfl, -, rfl⟩ := hfirst.word q eq heq.symm
        obtain ⟨h1, h2, h3, h4⟩ := scan_spec (m := m) (f := wordChar) hskip.2
        exact ⟨hskip.1, h2, h1, h3, h4⟩
      · have hlt : p < eq' := lt_of_le_of_lt hstart hfirst.lt
        have hle := hfirst.le
        exact ih (es - eq') (by omega) ⟨hp.1.trans hlt.le, hle⟩ hmem rfl

/-- Every token has a byte of its own. -/
theorem length_tokens_le (h : EndsAt m lo es) (hp : Within lo es p) : (tokens m es p).length ≤ es - p := by
  induction hk : es - p using Nat.strong_induction_on generalizing p with
  | _ k ih =>
    rcases skip_cases h hp with ⟨hnil, -⟩ | ⟨t, eq', -, hfirst, hcons⟩
    · rw [hnil]
      exact Nat.zero_le _
    · have hstart := (scan_spec (m := m) (f := fun c => decide (c ∈ whitespace)) hp.2).1
      have hlt : p < eq' := lt_of_le_of_lt hstart hfirst.lt
      have hle := hfirst.le
      have := ih (es - eq') (by omega) ⟨hp.1.trans hlt.le, hle⟩ rfl
      rw [hcons, length_cons]
      omega

end AudioPlayer.Sh
