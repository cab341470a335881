import AudioPlayer.Proof.Shell

/-!
# The parser of the shell accepts its grammar (`user/sh.c`)

* `parse_sound`: with enough rounds the parser returns or panics, and a command that it returns is
  derived from the tokens it has taken;
* `parse_complete`: it returns the command of a derivation, when what comes behind the tokens cannot
  belong to them;
* `nulterminate_word`: the words of the command are strings then.
-/

namespace AudioPlayer.Sh

open List Bytes

variable {m : Mem} {lo es p : ℕ} {X : NonTerminal} {n : ℕ}

/-! ## Calls that return -/

/-- The call returns or panics. Of what it returns, `Q` holds. -/
def Returns (call : Result (Cmd × ℕ)) (Q : Cmd → ℕ → Prop) : Prop :=
  ∃ r, call = some r ∧ ∀ cmd p, r = .ok (cmd, p) → Q cmd p

section Returns

variable {call : Result (Cmd × ℕ)} {f : Cmd × ℕ → Result (Cmd × ℕ)} {Q Q' : Cmd → ℕ → Prop}

theorem Returns.ok {cmd : Cmd} {p : ℕ} (h : Q cmd p) : Returns (ok (cmd, p)) Q := by
  refine ⟨_, rfl, fun cmd' p' heq => ?_⟩
  cases heq
  exact h

theorem Returns.panic {e : Panic} : Returns (panic e) Q := ⟨_, rfl, fun _ _ heq => by cases heq⟩

@[simp] theorem andThen_ok {α β : Type} (a : α) (f : α → Result β) : andThen (ok a) f = f a := rfl

/-- Two calls, one behind the other. -/
theorem Returns.andThen (h : Returns call Q) (hf : ∀ cmd p, Q cmd p → Returns (f (cmd, p)) Q') :
    Returns (andThen call f) Q' := by
  obtain ⟨r, rfl, hr⟩ := h
  cases r with
  | error e => exact Returns.panic
  | ok a => exact hf a.1 a.2 (hr a.1 a.2 rfl)

end Returns

/-! ## Redirections -/

theorem oneOf_redir {t : Token} : t.oneOf "<>" = true ↔ ∃ op : RedirOp, t = op.token := by
  constructor
  · intro h
    cases t with
    | lt => exact ⟨.input, rfl⟩
    | gt => exact ⟨.output, rfl⟩
    | gtgt => exact ⟨.append, rfl⟩
    | _ => cases h
  · rintro ⟨op, rfl⟩
    cases op <;> decide

theorem redircmd_eq (op : RedirOp) (cmd : Cmd) (q eq : ℕ) :
    redircmd op.token.code cmd q eq = Redir.wrap cmd ⟨op, q, eq⟩ := by
  cases op <;> rfl

theorem code_eq_word {t : Token} : t.code = 97 ↔ ∃ q eq, t = .word q eq := by
  constructor
  · intro h
    cases t with
    | word q eq => exact ⟨q, eq, rfl⟩
    | _ => cases h
  · rintro ⟨q, eq, rfl⟩
    rfl

variable {cmd : Cmd} {fuel : ℕ} {t : Token} {ts : List Token} {rest : List Token}

/-- No redirection is next. -/
theorem parseredirs_stop (h : EndsAt m lo es) (hp : Within lo es p)
    (hno : nextIs "<>" (tokens m es p) = false) :
    parseredirs m es (fuel + 1) cmd p = ok (cmd, skip m es p) := by
  rw [parseredirs, peek_spec h hp (by decide), hno]
  rfl

/-- The operator of a redirection is taken. -/
theorem parseredirs_op (cmd : Cmd) (fuel : ℕ) (h : EndsAt m lo es) (hp : Within lo es p) {op : RedirOp}
    (hts : tokens m es p = op.token :: ts) :
    ∃ p', Within lo es p' ∧ tokens m es p' = ts ∧ ∀ ret q eq p'', gettoken m es p' = (ret, q, eq, p'') →
      parseredirs m es (fuel + 1) cmd p =
        if ret ≠ 97 then panic .missingFile
        else parseredirs m es fuel (Redir.wrap cmd ⟨op, q, eq⟩) p'' := by
  have hskip := tokens_skip (m := m) hp.2
  obtain ⟨q0, eq0, p', hget, hp', hts', -⟩ := gettoken_cons h (hp.skip (m := m)) (hskip.trans hts)
  refine ⟨p', hp', hts', fun ret q eq p'' hget' => ?_⟩
  have hyes : nextIs "<>" (tokens m es p) = true := by
    rw [hts, nextIs_cons]
    exact oneOf_redir.2 ⟨op, rfl⟩
  rw [parseredirs, peek_spec h hp (by decide), hyes]
  dsimp only
  rw [if_pos rfl, hget]
  dsimp only
  rw [hget', redircmd_eq]

/-- A redirection. -/
theorem parseredirs_step (cmd : Cmd) (fuel : ℕ) (h : EndsAt m lo es) (hp : Within lo es p) {r : Redir}
    (hts : tokens m es p = r.tokens ++ ts) :
    ∃ p', parseredirs m es (fuel + 1) cmd p = parseredirs m es fuel (r.wrap cmd) p' ∧ Within lo es p' ∧
      tokens m es p' = ts := by
  obtain ⟨p1, hp1, hts1, hnext⟩ := parseredirs_op cmd fuel h hp hts
  obtain ⟨q, eq, p2, hget, hp2, hts2, hword⟩ := gettoken_cons h hp1 hts1
  obtain ⟨rfl, rfl⟩ := hword r.file r.efile rfl
  exact ⟨p2, (hnext _ _ _ _ hget).trans (if_neg (by simp [Token.code])), hp2, hts2⟩

/-- **`parseredirs`** returns the redirections in front, or panics. -/
theorem parseredirs_sound (cmd : Cmd) (fuel : ℕ) (h : EndsAt m lo es) (hp : Within lo es p)
    (hfuel : (tokens m es p).length < fuel) :
    Returns (parseredirs m es fuel cmd p) fun cmd' p' => Within lo es p' ∧
      ∃ rs : List Redir, tokens m es p = rs.flatMap Redir.tokens ++ tokens m es p' ∧
        cmd' = rs.foldl Redir.wrap cmd := by
  induction fuel generalizing p cmd with
  | zero => exact absurd hfuel (Nat.not_lt_zero _)
  | succ fuel ih =>
    cases hno : nextIs "<>" (tokens m es p) with
    | false =>
      rw [parseredirs_stop h hp hno]
      refine Returns.ok ⟨hp.skip, [], ?_, rfl⟩
      rw [tokens_skip hp.2]
      rfl
    | true =>
      obtain ⟨t, ts, hts, hone⟩ : ∃ t ts, tokens m es p = t :: ts ∧ t.oneOf "<>" = true := by
        cases hcons : tokens m es p with
        | nil =>
          rw [hcons] at hno
          cases hno
        | cons t ts =>
          rw [hcons] at hno
          exact ⟨t, ts, rfl, hno⟩
      obtain ⟨op, rfl⟩ := oneOf_redir.1 hone
      obtain ⟨p1, hp1, hts1, hnext⟩ := parseredirs_op cmd fuel h hp hts
      cases ts with
      | nil =>
        rw [hnext _ _ _ _ (gettoken_nil h hp1 hts1), if_pos (by decide)]
        exact Returns.panic
      | cons t ts =>
        obtain ⟨q, eq, p2, hget, hp2, hts2, hword⟩ := gettoken_cons h hp1 hts1
        rw [hnext _ _ _ _ hget]
        by_cases hcode : t.code = 97
        · obtain ⟨a, b, rfl⟩ := code_eq_word.1 hcode
          obtain ⟨rfl, rfl⟩ := hword a b rfl
          rw [if_neg (not_not.2 hcode)]
          obtain ⟨r, hr, hQ⟩ := ih (Redir.wrap cmd ⟨op, a, b⟩) hp2 (by
            rw [hts, length_cons, length_cons] at hfuel
            rw [hts2]
            omega)
          refine ⟨r, hr, fun cmd' p' heq => ?_⟩
          obtain ⟨hp', rs, hrest, rfl⟩ := hQ cmd' p' heq
          refine ⟨hp', ⟨op, a, b⟩ :: rs, ?_, rfl⟩
          rw [hts, ← hts2, hrest]
          rfl
        · rw [if_pos hcode]
          exact Returns.panic

/-- **`parseredirs`** returns all the redirections. -/
theorem parseredirs_complete (cmd : Cmd) (fuel : ℕ) (h : EndsAt m lo es) (hp : Within lo es p)
    {rs : List Redir}
    (hts : tokens m es p = rs.flatMap Redir.tokens ++ rest) (hrest : nextIs "<>" rest = false)
    (hfuel : (tokens m es p).length < fuel) :
    ∃ p', parseredirs m es fuel cmd p = ok (rs.foldl Redir.wrap cmd, p') ∧ Within lo es p' ∧
      tokens m es p' = rest := by
  induction rs generalizing p cmd fuel with
  | nil =>
    obtain ⟨fuel, rfl⟩ : ∃ k, fuel = k + 1 := ⟨fuel - 1, by omega⟩
    refine ⟨_, parseredirs_stop h hp (by rw [hts]; exact hrest), hp.skip, ?_⟩
    rw [tokens_skip hp.2, hts]
    rfl
  | cons r rs ih =>
    obtain ⟨fuel, rfl⟩ : ∃ k, fuel = k + 1 := ⟨fuel - 1, by omega⟩
    rw [flatMap_cons, append_assoc] at hts
    obtain ⟨p1, hstep, hp1, hts1⟩ := parseredirs_step cmd fuel h hp hts
    rw [hstep]
    refine ih (r.wrap cmd) fuel hp1 hts1 ?_
    rw [hts, length_append, ← hts1] at hfuel
    have : r.tokens.length = 2 := rfl
    omega

/-! ## `&` -/

/-- **The loop of `parseline`** takes all the `&`. -/
theorem parsebacks_spec (cmd : Cmd) (fuel : ℕ) (h : EndsAt m lo es) (hp : Within lo es p)
    (hts : tokens m es p = List.replicate n .amp ++ rest) (hrest : nextIs "&" rest = false)
    (hfuel : n < fuel) :
    ∃ p', parsebacks m es fuel cmd p = ok (Nat.iterate Cmd.back n cmd, p') ∧ Within lo es p' ∧
      tokens m es p' = rest := by
  induction n generalizing p cmd fuel with
  | zero =>
    obtain ⟨fuel, rfl⟩ : ∃ k, fuel = k + 1 := ⟨fuel - 1, by omega⟩
    refine ⟨skip m es p, ?_, hp.skip, ?_⟩
    · rw [parsebacks, peek_spec h hp (by decide), hts, replicate_zero, nil_append, hrest]
      rfl
    · rw [tokens_skip hp.2, hts]
      rfl
  | succ n ih =>
    obtain ⟨fuel, rfl⟩ : ∃ k, fuel = k + 1 := ⟨fuel - 1, by omega⟩
    rw [replicate_succ, cons_append] at hts
    obtain ⟨q, eq, p1, hget, hp1, hts1, -⟩ := gettoken_cons h (hp.skip (m := m))
      ((tokens_skip hp.2).trans hts)
    obtain ⟨p', hrec, hp', hts'⟩ := ih (.back cmd) fuel hp1 hts1 (by omega)
    refine ⟨p', ?_, hp', hts'⟩
    rw [parsebacks, peek_spec h hp (by decide), hts, nextIs_cons]
    dsimp only
    rw [if_pos (by decide), hget]
    exact hrec

/-- Any tokens are some `&` and others. -/
theorem exists_backs (ts : List Token) :
    ∃ n rest, ts = List.replicate n .amp ++ rest ∧ nextIs "&" rest = false := by
  induction ts with
  | nil => exact ⟨0, [], rfl, rfl⟩
  | cons t ts ih =>
    cases hone : t.oneOf "&" with
    | false => exact ⟨0, t :: ts, rfl, hone⟩
    | true =>
      obtain ⟨n, rest, rfl, hrest⟩ := ih
      obtain rfl : t = .amp := by
        cases t with
        | amp => rfl
        | _ => cases hone
      exact ⟨n + 1, rest, rfl, hrest⟩

/-! ## Arguments -/

/-- A word is stored in the `execcmd` below the redirections. -/
theorem addArg_foldl (q eq : ℕ) (rs : List Redir) (args : List (ℕ × ℕ)) :
    addArg q eq (rs.foldl Redir.wrap (.exec args)) = rs.foldl Redir.wrap (.exec (args ++ [(q, eq)])) := by
  induction rs using List.reverseRecOn with
  | nil => rfl
  | append_singleton rs r ih =>
    rw [foldl_append, foldl_append]
    show addArg q eq (Redir.wrap _ r) = Redir.wrap _ r
    obtain ⟨op, file, efile⟩ := r
    cases op <;> simp only [Redir.wrap, addArg, ih]

/-- What stands where no argument comes. -/
theorem parseargs_stop (cmd : Cmd) (fuel argc : ℕ) (h : EndsAt m lo es) (hp : Within lo es p)
    (hstop : Stops "|)&;" (tokens m es p)) :
    ∃ p', parseargs m es (fuel + 1) argc cmd p = ok (cmd, p') ∧ Within lo es p' ∧
      tokens m es p' = tokens m es p := by
  have hskip := tokens_skip (m := m) hp.2
  rw [parseargs, peek_spec h hp (by decide)]
  rcases hstop with hnil | hyes
  · rw [hnil] at hskip ⊢
    refine ⟨es, ?_, ⟨hp.1.trans hp.2, le_rfl⟩, tokens_end le_rfl⟩
    dsimp only
    rw [nextIs_nil, if_neg Bool.false_ne_true, gettoken_nil h hp.skip hskip]
    rfl
  · refine ⟨skip m es p, ?_, hp.skip, hskip⟩
    dsimp only
    rw [if_pos hyes]

/-- A word. -/
theorem parseargs_word (cmd : Cmd) (fuel argc : ℕ) (h : EndsAt m lo es) (hp : Within lo es p) {q eq : ℕ}
    (hts : tokens m es p = .word q eq :: ts) :
    ∃ p', Within lo es p' ∧ tokens m es p' = ts ∧ parseargs m es (fuel + 1) argc cmd p =
      if argc + 1 ≥ maxargs then panic .tooManyArgs
      else andThen (parseredirs m es fuel (addArg q eq cmd) p') fun r =>
        parseargs m es fuel (argc + 1) r.1 r.2 := by
  obtain ⟨a, b, p1, hget, hp1, hts1, hword⟩ := gettoken_cons h (hp.skip (m := m))
    ((tokens_skip hp.2).trans hts)
  obtain ⟨rfl, rfl⟩ := hword q eq rfl
  refine ⟨p1, hp1, hts1, ?_⟩
  have hno : nextIs "|)&;" (tokens m es p) = false := by rw [hts]; rfl
  rw [parseargs, peek_spec h hp (by decide), hno]
  dsimp only
  rw [if_neg Bool.false_ne_true, hget]
  rfl

/-- A token that is no word and does not end the command. -/
theorem parseargs_other (h : EndsAt m lo es) (hp : Within lo es p) {argc : ℕ}
    (hts : tokens m es p = t :: ts) (hno : t.oneOf "|)&;" = false) (hcode : t.code ≠ 97) :
    parseargs m es (fuel + 1) argc cmd p = panic .unexpected := by
  obtain ⟨a, b, p1, hget, -⟩ := gettoken_cons h (hp.skip (m := m)) ((tokens_skip hp.2).trans hts)
  have hzero : t.code ≠ 0 := by
    cases t with
    | word q eq => exact absurd rfl hcode
    | _ => decide
  rw [parseargs, peek_spec h hp (by decide), hts, nextIs_cons, hno]
  dsimp only
  rw [if_neg Bool.false_ne_true, hget]
  dsimp only
  rw [if_neg hzero, if_pos hcode]

/-- The words, with the redirections between them. -/
def argTree (rs : List Redir) (args : List (ℕ × ℕ)) (ws : List Arg) : Cmd :=
  (rs ++ ws.flatMap Arg.redirs).foldl Redir.wrap (.exec (args ++ ws.map fun w => (w.q, w.eq)))

theorem argTree_nil (rs : List Redir) (args : List (ℕ × ℕ)) :
    argTree rs args [] = rs.foldl Redir.wrap (.exec args) := by
  rw [argTree, flatMap_nil, append_nil, map_nil, append_nil]

theorem argTree_cons (rs : List Redir) (args : List (ℕ × ℕ)) (w : Arg) (ws : List Arg) :
    argTree rs args (w :: ws) = argTree (rs ++ w.redirs) (args ++ [(w.q, w.eq)]) ws := by
  rw [argTree, argTree, flatMap_cons, append_assoc, map_cons, append_assoc]
  rfl

/-- **The loop of `parseexec`** returns the words in front, or panics. -/
theorem parseargs_sound (fuel : ℕ) (h : EndsAt m lo es) (hp : Within lo es p) (rs : List Redir)
    (args : List (ℕ × ℕ)) (hargs : args.length < maxargs) (hfuel : (tokens m es p).length < fuel) :
    Returns (parseargs m es fuel args.length (rs.foldl Redir.wrap (.exec args)) p) fun cmd' p' =>
      Within lo es p' ∧ ∃ ws : List Arg, tokens m es p = ws.flatMap Arg.tokens ++ tokens m es p' ∧
        args.length + ws.length < maxargs ∧ cmd' = argTree rs args ws := by
  induction fuel generalizing p rs args with
  | zero => exact absurd hfuel (Nat.not_lt_zero _)
  | succ fuel ih =>
    by_cases hstop : Stops "|)&;" (tokens m es p)
    · obtain ⟨p', hcall, hp', hts'⟩ := parseargs_stop (rs.foldl Redir.wrap (.exec args)) fuel args.length
        h hp hstop
      rw [hcall]
      exact Returns.ok ⟨hp', [], hts'.symm, hargs, (argTree_nil rs args).symm⟩
    rw [Stops, not_or, Bool.not_eq_true] at hstop
    obtain ⟨t, ts, hts⟩ := exists_cons_of_ne_nil hstop.1
    have hno : t.oneOf "|)&;" = false := by
      rw [← nextIs_cons _ t ts, ← hts]
      exact hstop.2
    by_cases hcode : t.code = 97
    · obtain ⟨q, eq, rfl⟩ := code_eq_word.1 hcode
      obtain ⟨p1, hp1, hts1, hcall⟩ := parseargs_word (rs.foldl Redir.wrap (.exec args)) fuel
        args.length h hp hts
      rw [hcall]
      split_ifs with hmax
      · exact Returns.panic
      rw [hts, length_cons] at hfuel
      rw [addArg_foldl]
      refine (parseredirs_sound _ _ h hp1 (by rw [hts1]; omega)).andThen fun cmd2 p2 hQ => ?_
      obtain ⟨hp2, rs', hts2, rfl⟩ := hQ
      have hlen : (tokens m es p2).length < fuel := by
        have := congrArg List.length hts2
        rw [hts1, length_append] at this
        omega
      rw [← foldl_append]
      have hargs' : (args ++ [(q, eq)]).length = args.length + 1 := length_append
      obtain ⟨r, hr, hQ⟩ := ih hp2 (rs ++ rs') (args ++ [(q, eq)]) (by omega) hlen
      rw [hargs'] at hr hQ
      refine ⟨r, hr, fun cmd' p' heq => ?_⟩
      obtain ⟨hp', ws, hts', hmax', rfl⟩ := hQ cmd' p' heq
      refine ⟨hp', ⟨q, eq, rs'⟩ :: ws, ?_, ?_, (argTree_cons rs args ⟨q, eq, rs'⟩ ws).symm⟩
      · rw [hts, ← hts1, hts2, hts', flatMap_cons, Arg.tokens, cons_append, cons_append, append_assoc]
      · rw [length_cons]
        omega
    · rw [parseargs_other h hp hts hno hcode]
      exact Returns.panic

/-- **The loop of `parseexec`** returns all the words. -/
theorem parseargs_complete (fuel : ℕ) (h : EndsAt m lo es) (hp : Within lo es p) (rs : List Redir)
    (args : List (ℕ × ℕ)) {ws : List Arg} (hts : tokens m es p = ws.flatMap Arg.tokens ++ rest)
    (hrest : Stops "|)&;" rest) (hmax : args.length + ws.length < maxargs)
    (hfuel : (tokens m es p).length < fuel) :
    ∃ p', parseargs m es fuel args.length (rs.foldl Redir.wrap (.exec args)) p =
      ok (argTree rs args ws, p') ∧
      Within lo es p' ∧ tokens m es p' = rest := by
  induction ws generalizing p rs args fuel with
  | nil =>
    obtain ⟨fuel, rfl⟩ : ∃ k, fuel = k + 1 := ⟨fuel - 1, by omega⟩
    rw [flatMap_nil, nil_append] at hts
    rw [← hts] at hrest ⊢
    rw [argTree_nil]
    exact parseargs_stop _ _ _ h hp hrest
  | cons w ws ih =>
    obtain ⟨fuel, rfl⟩ : ∃ k, fuel = k + 1 := ⟨fuel - 1, by omega⟩
    rw [flatMap_cons, Arg.tokens, cons_append, cons_append, append_assoc] at hts
    obtain ⟨p1, hp1, hts1, hcall⟩ := parseargs_word (rs.foldl Redir.wrap (.exec args)) fuel
      args.length h hp hts
    rw [hts, length_cons] at hfuel
    rw [length_cons] at hmax
    -- no redirection comes behind those of the word
    have hnext : nextIs "<>" (ws.flatMap Arg.tokens ++ rest) = false := by
      cases ws with
      | nil => exact hrest.nextIs_eq_false (by decide)
      | cons w ws => rfl
    obtain ⟨p2, hredirs, hp2, hts2⟩ := parseredirs_complete
      (rs.foldl Redir.wrap (.exec (args ++ [(w.q, w.eq)])))
      fuel h hp1 hts1 hnext (by rw [hts1]; omega)
    have hlen : (tokens m es p2).length < fuel := by
      rw [length_append, ← hts2] at hfuel
      omega
    have hargs : (args ++ [(w.q, w.eq)]).length = args.length + 1 := length_append
    obtain ⟨p', hrec, hp', hts'⟩ := ih fuel hp2 (rs ++ w.redirs) (args ++ [(w.q, w.eq)]) hts2
      (by omega) hlen
    refine ⟨p', ?_, hp', hts'⟩
    rw [hcall, if_neg (by omega), addArg_foldl, hredirs, argTree_cons, ← hrec, hargs, foldl_append]
    rfl

/-! ## Lines, pipes and commands -/

/-- The parser of a part of the grammar. -/
def parse (m : Mem) (es : ℕ) : NonTerminal → ℕ → ℕ → Result (Cmd × ℕ)
  | .line => parseline m es
  | .pipe => parsepipe m es
  | .exec => parseexec m es

/-- How many rounds it takes for `n` tokens. -/
def rounds : NonTerminal → ℕ → ℕ
  | .line, n => 4 * n + 4
  | .pipe, n => 4 * n + 3
  | .exec, n => 4 * n + 2

theorem exists_round (h : rounds X n ≤ fuel) : ∃ k, fuel = k + 1 := by
  cases X <;> exact ⟨fuel - 1, by dsimp only [rounds] at h; omega⟩

/-- What comes behind it. -/
def follow : NonTerminal → String
  | .line => ")"
  | .pipe => ")&;"
  | .exec => "|)&;"

/-- A symbol that is next is taken. -/
theorem take_symbol (h : EndsAt m lo es) (hp : Within lo es p)
    (hts : tokens m es p = t :: ts) :
    ∃ p', (gettoken m es (skip m es p)).2.2.2 = p' ∧ Within lo es p' ∧ tokens m es p' = ts := by
  obtain ⟨q, eq, p', hget, hp', hts', -⟩ := gettoken_cons h (hp.skip (m := m))
    ((tokens_skip hp.2).trans hts)
  exact ⟨p', by rw [hget], hp', hts'⟩

theorem nextIs_eq_true {toks : String} (h : nextIs toks ts = true)
    (hone : ∀ t' : Token, t'.oneOf toks = true → t' = t) : ∃ ts', ts = t :: ts' := by
  cases ts with
  | nil => cases h
  | cons t' ts => exact ⟨ts, by rw [hone t' h]⟩

/-- What the parser of a part does: it returns or panics, and a command that it returns is derived
from the tokens that it took. -/
def Sound (m : Mem) (lo es : ℕ) (X : NonTerminal) (fuel p : ℕ) : Prop :=
  Returns (parse m es X fuel p) fun cmd p' => Within lo es p' ∧
    ∃ ts, tokens m es p = ts ++ tokens m es p' ∧ Derives X ts cmd

theorem parseline_sound (h : EndsAt m lo es)
    (hfuel : rounds .line (tokens m es p).length ≤ fuel + 1) (hpipe : Sound m lo es .pipe fuel p)
    (hline : ∀ p, Within lo es p → rounds .line (tokens m es p).length ≤ fuel →
      Sound m lo es .line fuel p) :
    Sound m lo es .line (fuel + 1) p := by
  show Returns (parseline m es (fuel + 1) p) _
  rw [parseline]
  refine hpipe.andThen fun cmd p1 hQ => ?_
  obtain ⟨hp1, ts, hts, hder⟩ := hQ
  obtain ⟨n, rest, hts1, hrest⟩ := exists_backs (tokens m es p1)
  have hlen := congrArg List.length hts
  have hlen1 := congrArg List.length hts1
  rw [length_append] at hlen
  rw [length_append, length_replicate] at hlen1
  dsimp only [rounds] at hfuel hline
  obtain ⟨p2, hbacks, hp2, hts2⟩ := parsebacks_spec cmd fuel h hp1 hts1 hrest (by omega)
  dsimp only
  rw [hbacks, andThen_ok]
  dsimp only
  rw [peek_spec h hp2 (by decide)]
  dsimp only
  cases hsemi : nextIs ";" (tokens m es p2) with
  | false =>
    refine Returns.ok ⟨hp2.skip, ts ++ List.replicate n .amp, ?_, Derives.line n hder⟩
    rw [tokens_skip hp2.2, hts, hts1, hts2, append_assoc]
  | true =>
    obtain ⟨ts', hts'⟩ := nextIs_eq_true (t := .semi) hsemi
      fun t ht => by cases t <;> first | rfl | cases ht
    obtain ⟨p3, hget, hp3, hts3⟩ := take_symbol h hp2 hts'
    have hlen2 := congrArg List.length (hts2.symm.trans hts')
    rw [length_cons, ← hts3] at hlen2
    rw [if_pos rfl, hget]
    refine (hline p3 hp3 (by omega)).andThen fun right p4 hQ => ?_
    obtain ⟨hp4, ts4, hts4, hright⟩ := hQ
    refine Returns.ok ⟨hp4, _, ?_, Derives.lines n hder hright⟩
    rw [hts, hts1, ← hts2, hts', ← hts3, hts4]
    simp

theorem parsepipe_sound (h : EndsAt m lo es) (hfuel : rounds .pipe (tokens m es p).length ≤ fuel + 1)
    (hexec : Sound m lo es .exec fuel p)
    (hpipe : ∀ p, Within lo es p → rounds .pipe (tokens m es p).length ≤ fuel →
      Sound m lo es .pipe fuel p) :
    Sound m lo es .pipe (fuel + 1) p := by
  show Returns (parsepipe m es (fuel + 1) p) _
  rw [parsepipe]
  refine hexec.andThen fun cmd p1 hQ => ?_
  obtain ⟨hp1, ts, hts, hder⟩ := hQ
  have hlen := congrArg List.length hts
  rw [length_append] at hlen
  dsimp only [rounds] at hfuel hpipe
  dsimp only
  rw [peek_spec h hp1 (by decide)]
  dsimp only
  cases hbar : nextIs "|" (tokens m es p1) with
  | false =>
    refine Returns.ok ⟨hp1.skip, ts, ?_, Derives.pipe hder⟩
    rw [tokens_skip hp1.2, hts]
  | true =>
    obtain ⟨ts', hts'⟩ := nextIs_eq_true (t := .bar) hbar
      fun t ht => by cases t <;> first | rfl | cases ht
    obtain ⟨p2, hget, hp2, hts2⟩ := take_symbol h hp1 hts'
    have hlen1 := congrArg List.length hts'
    rw [length_cons, ← hts2] at hlen1
    rw [if_pos rfl, hget]
    refine (hpipe p2 hp2 (by omega)).andThen fun right p3 hQ => ?_
    obtain ⟨hp3, ts3, hts3, hright⟩ := hQ
    refine Returns.ok ⟨hp3, _, ?_, Derives.pipes hder hright⟩
    rw [hts, hts', ← hts2, hts3]
    simp

/-- **`parseblock`** at a `(`. -/
theorem parseblock_sound (h : EndsAt m lo es) (hp : Within lo es p)
    (hts : tokens m es p = .lpar :: ts) (hfuel : 4 * (tokens m es p).length ≤ fuel)
    (hline : ∀ p, Within lo es p → rounds .line (tokens m es p).length ≤ fuel →
      Sound m lo es .line fuel p) :
    Returns (parseblock m es (fuel + 1) p) fun cmd p' => Within lo es p' ∧
      ∃ ts, tokens m es p = ts ++ tokens m es p' ∧ Derives .exec ts cmd := by
  have hyes : nextIs "(" (tokens m es p) = true := by
    rw [hts]
    rfl
  obtain ⟨p1, hget, hp1, hts1⟩ := take_symbol h hp hts
  have hlen := congrArg List.length hts
  rw [length_cons, ← hts1] at hlen
  dsimp only [rounds] at hline
  rw [parseblock, peek_spec h hp (by decide), hyes]
  dsimp only
  rw [if_neg (by decide), hget]
  refine (hline p1 hp1 (by omega)).andThen fun cmd p2 hQ => ?_
  obtain ⟨hp2, ts2, hts2, hder⟩ := hQ
  dsimp only
  rw [peek_spec h hp2 (by decide)]
  dsimp only
  cases hrpar : nextIs ")" (tokens m es p2) with
  | false => exact Returns.panic
  | true =>
    obtain ⟨ts', hts'⟩ := nextIs_eq_true (t := .rpar) hrpar
      fun t ht => by cases t <;> first | rfl | cases ht
    obtain ⟨p3, hget', hp3, hts3⟩ := take_symbol h hp2 hts'
    have hlen2 := congrArg List.length hts2
    have hlen3 := congrArg List.length hts'
    rw [length_append] at hlen2
    rw [length_cons, ← hts3] at hlen3
    rw [if_neg (by decide), hget']
    obtain ⟨r, hr, hQ⟩ := parseredirs_sound cmd fuel h hp3 (by omega)
    refine ⟨r, hr, fun cmd' p' heq => ?_⟩
    obtain ⟨hp', rs, hts'', rfl⟩ := hQ cmd' p' heq
    refine ⟨hp', _, ?_, Derives.block rs hder⟩
    rw [hts, ← hts1, hts2, hts', ← hts3, hts'']
    simp

theorem parseexec_sound (h : EndsAt m lo es) (hp : Within lo es p)
    (hfuel : rounds .exec (tokens m es p).length ≤ fuel + 2)
    (hline : ∀ p, Within lo es p → rounds .line (tokens m es p).length ≤ fuel →
      Sound m lo es .line fuel p) :
    Sound m lo es .exec (fuel + 2) p := by
  show Returns (parseexec m es (fuel + 2) p) _
  dsimp only [rounds] at hfuel
  have hskip := tokens_skip (m := m) hp.2
  rw [parseexec, peek_spec h hp (by decide)]
  dsimp only
  cases hlpar : nextIs "(" (tokens m es p) with
  | true =>
    obtain ⟨ts, hts⟩ := nextIs_eq_true (t := .lpar) hlpar
      fun t ht => by cases t <;> first | rfl | cases ht
    rw [if_pos rfl, ← hskip]
    exact parseblock_sound h hp.skip (hskip.trans hts) (by rw [hskip]; omega) hline
  | false =>
    rw [if_neg Bool.false_ne_true]
    refine (parseredirs_sound _ _ h hp.skip (by rw [hskip]; omega)).andThen fun cmd p1 hQ => ?_
    obtain ⟨hp1, rs, hts, rfl⟩ := hQ
    rw [hskip] at hts
    have hlen := congrArg List.length hts
    rw [length_append] at hlen
    obtain ⟨r, hr, hQ⟩ := parseargs_sound (fuel + 1) h hp1 rs [] (by decide) (by omega)
    refine ⟨r, hr, fun cmd' p' heq => ?_⟩
    obtain ⟨hp', ws, hts', hmax, rfl⟩ := hQ cmd' p' heq
    refine ⟨hp', _, ?_, Derives.words rs ws (by simpa using hmax)⟩
    rw [hts, hts', append_assoc]

/-- **With enough rounds the parser returns or panics**, and what it returns is derived from the
tokens that it took. -/
theorem parse_sound (h : EndsAt m lo es) (X : NonTerminal) (hp : Within lo es p)
    (hfuel : rounds X (tokens m es p).length ≤ fuel) : Sound m lo es X fuel p := by
  induction fuel using Nat.strong_induction_on generalizing X p with
  | _ fuel ih =>
    cases X with
    | line =>
      obtain ⟨k, rfl⟩ := exists_round hfuel
      refine parseline_sound h hfuel (ih k (by omega) .pipe hp ?_) fun p hp hle =>
        ih k (by omega) .line hp hle
      dsimp only [rounds] at hfuel ⊢
      omega
    | pipe =>
      obtain ⟨k, rfl⟩ := exists_round hfuel
      refine parsepipe_sound h hfuel (ih k (by omega) .exec hp ?_) fun p hp hle =>
        ih k (by omega) .pipe hp hle
      dsimp only [rounds] at hfuel ⊢
      omega
    | exec =>
      obtain ⟨k, rfl⟩ : ∃ k, fuel = k + 2 := ⟨fuel - 2, by dsimp only [rounds] at hfuel; omega⟩
      exact parseexec_sound h hp hfuel fun p hp hle => ih k (by omega) .line hp hle

/-! ## All derivations are found -/

/-- The parser returns the command of a derivation. -/
def Finds (m : Mem) (lo es : ℕ) (X : NonTerminal) (ts : List Token) (cmd : Cmd) : Prop :=
  ∀ {p k : ℕ} {r : List Token}, Within lo es p → tokens m es p = ts ++ r → Stops (follow X) r →
    rounds X (tokens m es p).length ≤ k →
    ∃ p', parse m es X k p = ok (cmd, p') ∧ Within lo es p' ∧ tokens m es p' = r

theorem stops_cons {toks : String} (h : t.oneOf toks = true) : Stops toks (t :: ts) :=
  Or.inr h

/-- Behind a pipe come some `&`, and the rest. -/
theorem stops_backs (h : Stops ")&;" rest) :
    Stops ")&;" (List.replicate n .amp ++ rest) := by
  cases n with
  | zero => exact h
  | succ n => exact stops_cons rfl

theorem Stops.mono {toks toks' : String} (h : Stops toks ts)
    (hsub : (ascii toks).all (ascii toks').contains = true) : Stops toks' ts := by
  refine h.imp_right fun h => ?_
  cases ts with
  | nil => cases h
  | cons t ts =>
    rw [nextIs_cons, Token.oneOf] at h ⊢
    cases hfirst : t.first with
    | none =>
      rw [hfirst] at h
      cases h
    | some c =>
      rw [hfirst] at h
      have hin := all_eq_true.1 hsub c (of_decide_eq_true h)
      rwa [contains_eq_mem] at hin

/-- The pipe of a line and the `&` behind it. -/
theorem parseline_start (h : EndsAt m lo es) (hpipe : Finds m lo es .pipe ts cmd)
    (hp : Within lo es p) (hts : tokens m es p = ts ++ (List.replicate n .amp ++ rest))
    (hrest : Stops ");" rest) (hfuel : rounds .line (tokens m es p).length ≤ fuel + 1) :
    ∃ p1, Within lo es p1 ∧ tokens m es p1 = rest ∧ parseline m es (fuel + 1) p =
      if nextIs ";" rest then
        andThen (parseline m es fuel (gettoken m es (skip m es p1)).2.2.2) fun r =>
          ok (.list (Nat.iterate Cmd.back n cmd) r.1, r.2)
      else ok (Nat.iterate Cmd.back n cmd, skip m es p1) := by
  dsimp only [rounds] at hfuel
  obtain ⟨p1, hcall, hp1, hts1⟩ := hpipe hp hts (stops_backs (hrest.mono (by decide))) (by
    show 4 * (tokens m es p).length + 3 ≤ fuel
    omega)
  have hlen := congrArg List.length hts
  simp only [length_append, length_replicate] at hlen
  obtain ⟨p2, hbacks, hp2, hts2⟩ := parsebacks_spec cmd fuel h hp1 hts1
    (hrest.nextIs_eq_false (by decide)) (by omega)
  refine ⟨p2, hp2, hts2, ?_⟩
  rw [parseline, show parsepipe m es fuel p = ok (cmd, p1) from hcall, andThen_ok]
  dsimp only
  rw [hbacks, andThen_ok]
  dsimp only
  rw [peek_spec h hp2 (by decide), hts2]

theorem finds_line (h : EndsAt m lo es) (n : ℕ) (hpipe : Finds m lo es .pipe ts cmd) :
    Finds m lo es .line (ts ++ List.replicate n .amp) (Nat.iterate Cmd.back n cmd) := by
  intro p fuel rest hp hts hrest hfuel
  obtain ⟨fuel, rfl⟩ := exists_round hfuel
  rw [append_assoc] at hts
  obtain ⟨p1, hp1, hts1, hcall⟩ := parseline_start h hpipe hp hts (hrest.mono (by decide)) hfuel
  rw [hrest.nextIs_eq_false (by decide), if_neg Bool.false_ne_true] at hcall
  exact ⟨_, hcall, hp1.skip, (tokens_skip hp1.2).trans hts1⟩

theorem finds_lines (h : EndsAt m lo es) {ts ts' : List Token} {right : Cmd} (n : ℕ)
    (hpipe : Finds m lo es .pipe ts cmd) (hline : Finds m lo es .line ts' right) :
    Finds m lo es .line (ts ++ (List.replicate n .amp ++ .semi :: ts'))
      (.list (Nat.iterate Cmd.back n cmd) right) := by
  intro p fuel rest hp hts hrest hfuel
  obtain ⟨fuel, rfl⟩ := exists_round hfuel
  rw [append_assoc, append_assoc, cons_append] at hts
  obtain ⟨p1, hp1, hts1, hcall⟩ := parseline_start h hpipe hp hts (stops_cons rfl) hfuel
  obtain ⟨p2, hget, hp2, hts2⟩ := take_symbol h hp1 hts1
  have hlen := congrArg List.length hts
  simp only [length_append, length_cons] at hlen
  obtain ⟨p3, hright, hp3, hts3⟩ := hline (k := fuel) hp2 hts2 hrest (by
    dsimp only [rounds] at hfuel ⊢
    rw [hts2, length_append]
    omega)
  refine ⟨p3, ?_, hp3, hts3⟩
  rw [hget, show parseline m es fuel p2 = ok (right, p3) from hright] at hcall
  exact hcall

theorem finds_pipe (h : EndsAt m lo es) (hexec : Finds m lo es .exec ts cmd) :
    Finds m lo es .pipe ts cmd := by
  intro p fuel rest hp hts hrest hfuel
  obtain ⟨fuel, rfl⟩ := exists_round hfuel
  obtain ⟨p1, hcall, hp1, hts1⟩ := hexec (k := fuel) hp hts (hrest.mono (by decide)) (by
    dsimp only [rounds] at hfuel ⊢
    omega)
  refine ⟨skip m es p1, ?_, hp1.skip, (tokens_skip hp1.2).trans hts1⟩
  show parsepipe m es (fuel + 1) p = _
  rw [parsepipe, show parseexec m es fuel p = ok (cmd, p1) from hcall, andThen_ok]
  dsimp only
  rw [peek_spec h hp1 (by decide), hts1, hrest.nextIs_eq_false (by decide)]
  rfl

theorem finds_pipes (h : EndsAt m lo es) {ts ts' : List Token} {right : Cmd}
    (hexec : Finds m lo es .exec ts cmd) (hpipe : Finds m lo es .pipe ts' right) :
    Finds m lo es .pipe (ts ++ .bar :: ts') (.pipe cmd right) := by
  intro p fuel rest hp hts hrest hfuel
  obtain ⟨fuel, rfl⟩ := exists_round hfuel
  rw [append_assoc, cons_append] at hts
  obtain ⟨p1, hcall, hp1, hts1⟩ := hexec (k := fuel) hp hts (stops_cons rfl) (by
    dsimp only [rounds] at hfuel ⊢
    omega)
  obtain ⟨p2, hget, hp2, hts2⟩ := take_symbol h hp1 hts1
  have hlen := congrArg List.length hts
  simp only [length_append, length_cons] at hlen
  obtain ⟨p3, hright, hp3, hts3⟩ := hpipe (k := fuel) hp2 hts2 hrest (by
    dsimp only [rounds] at hfuel ⊢
    rw [hts2, length_append]
    omega)
  refine ⟨p3, ?_, hp3, hts3⟩
  show parsepipe m es (fuel + 1) p = _
  rw [parsepipe, show parseexec m es fuel p = ok (cmd, p1) from hcall, andThen_ok]
  dsimp only
  rw [peek_spec h hp1 (by decide), hts1, nextIs_cons]
  dsimp only
  rw [if_pos (by decide), hget, show parsepipe m es fuel p2 = ok (right, p3) from hright]
  rfl

theorem finds_block (h : EndsAt m lo es) (rs : List Redir) (hline : Finds m lo es .line ts cmd) :
    Finds m lo es .exec (.lpar :: (ts ++ .rpar :: rs.flatMap Redir.tokens))
      (rs.foldl Redir.wrap cmd) := by
  intro p fuel rest hp hts hrest hfuel
  obtain ⟨fuel, rfl⟩ : ∃ k, fuel = k + 2 := ⟨fuel - 2, by dsimp only [rounds] at hfuel; omega⟩
  rw [cons_append, append_assoc, cons_append] at hts
  have hlen := congrArg List.length hts
  simp only [length_append, length_cons] at hlen
  dsimp only [rounds] at hfuel
  have hskip := (tokens_skip (m := m) hp.2).trans hts
  obtain ⟨p1, hget, hp1, hts1⟩ := take_symbol h (hp.skip (m := m)) hskip
  obtain ⟨p2, hcall, hp2, hts2⟩ := hline (k := fuel) hp1 hts1 (stops_cons rfl) (by
    dsimp only [rounds]
    rw [hts1]
    simp only [length_append, length_cons]
    omega)
  obtain ⟨p3, hget', hp3, hts3⟩ := take_symbol h hp2 hts2
  obtain ⟨p4, hredirs, hp4, hts4⟩ := parseredirs_complete cmd fuel h hp3 hts3
    (hrest.nextIs_eq_false (by decide)) (by
      rw [hts3, length_append]
      omega)
  refine ⟨p4, ?_, hp4, hts4⟩
  show parseexec m es (fuel + 2) p = _
  rw [parseexec, peek_spec h hp (by decide), hts, nextIs_cons]
  dsimp only
  rw [if_pos (by decide), parseblock, peek_spec h hp.skip (by decide), hskip, nextIs_cons]
  dsimp only
  rw [if_neg (by decide), hget, show parseline m es fuel p1 = ok (cmd, p2) from hcall, andThen_ok]
  dsimp only
  rw [peek_spec h hp2 (by decide), hts2, nextIs_cons]
  dsimp only
  rw [if_neg (by decide), hget', hredirs]

theorem finds_words (h : EndsAt m lo es) (rs : List Redir) (ws : List Arg) (hmax : ws.length < maxargs) :
    Finds m lo es .exec (rs.flatMap Redir.tokens ++ ws.flatMap Arg.tokens) (argTree rs [] ws) := by
  intro p fuel rest hp hts hrest hfuel
  obtain ⟨fuel, rfl⟩ := exists_round hfuel
  rw [append_assoc] at hts
  have hlen := congrArg List.length hts
  simp only [length_append] at hlen
  dsimp only [rounds] at hfuel
  have hskip := (tokens_skip (m := m) hp.2).trans hts
  -- neither a redirection nor a `(` comes behind what the loops take
  have hwords : ∀ toks, (ascii "|)&;").all (fun c => !(ascii toks).contains c) = true →
      nextIs toks (ws.flatMap Arg.tokens ++ rest) = false := by
    intro toks htoks
    cases ws with
    | nil => exact hrest.nextIs_eq_false htoks
    | cons w ws => rfl
  have hno : nextIs "(" (tokens m es p) = false := by
    rw [hts]
    cases rs with
    | nil => exact hwords "(" (by decide)
    | cons r rs =>
      obtain ⟨op, file, efile⟩ := r
      cases op <;> rfl
  obtain ⟨p1, hredirs, hp1, hts1⟩ := parseredirs_complete (.exec []) fuel h hp.skip hskip
    (hwords "<>" (by decide)) (by rw [tokens_skip hp.2]; omega)
  obtain ⟨p2, hargs, hp2, hts2⟩ := parseargs_complete fuel h hp1 rs [] hts1 hrest (by simpa using hmax) (by
    rw [hts1, length_append]
    omega)
  refine ⟨p2, ?_, hp2, hts2⟩
  show parseexec m es (fuel + 1) p = _
  rw [parseexec, peek_spec h hp (by decide), hno]
  dsimp only
  rw [if_neg Bool.false_ne_true, hredirs, andThen_ok]
  exact hargs

/-- **The parser returns the command of every derivation.** -/
theorem parse_complete (h : EndsAt m lo es) (hder : Derives X ts cmd) :
    Finds m lo es X ts cmd := by
  induction hder with
  | line n _ ih => exact finds_line h n ih
  | lines n _ _ ih ih' => exact finds_lines h n ih ih'
  | pipe _ ih => exact finds_pipe h ih
  | pipes _ _ ih ih' => exact finds_pipes h ih ih'
  | block rs _ ih => exact finds_block h rs ih
  | words rs ws hmax => exact finds_words h rs ws hmax

/-! ## The words are cut out -/

/-- `nulterminate` writes behind the words, and nowhere else. -/
theorem nulterminate_apply (m : Mem) (cmd : Cmd) (x : ℕ) :
    nulterminate m cmd x = if x ∈ cmd.words.map Prod.snd then 0 else m x := by
  have happend : ∀ (l l' : List (ℕ × ℕ)) (b : UInt8),
      (if x ∈ l'.map Prod.snd then 0 else if x ∈ l.map Prod.snd then 0 else b) =
        if x ∈ (l ++ l').map Prod.snd then (0 : UInt8) else b := by
    intro l l' b
    simp only [map_append, mem_append]
    split_ifs <;> first | rfl | tauto
  induction cmd generalizing m with
  | exec argv =>
    rw [nulterminate, Cmd.words]
    induction argv generalizing m with
    | nil => rfl
    | cons arg argv ih =>
      rw [foldl_cons, ih, Function.update_apply]
      simp only [map_cons, mem_cons]
      split_ifs <;> first | rfl | tauto
  | redir cmd file efile mode fd ih =>
    rw [nulterminate, Cmd.words, Function.update_apply, ih]
    simp only [map_cons, mem_cons]
    split_ifs <;> first | rfl | tauto
  | pipe left right ihl ihr => rw [nulterminate, Cmd.words, ihr, ihl, happend]
  | list left right ihl ihr => rw [nulterminate, Cmd.words, ihr, ihl, happend]
  | back cmd ih => rw [nulterminate, Cmd.words, ih]

theorem words_wrap (rs : List Redir) (cmd : Cmd) (w : ℕ × ℕ) :
    w ∈ (rs.foldl Redir.wrap cmd).words ↔ w ∈ cmd.words ∨ ∃ r ∈ rs, w = (r.file, r.efile) := by
  induction rs generalizing cmd with
  | nil => simp
  | cons r rs ih =>
    have hwrap : (Redir.wrap cmd r).words = (r.file, r.efile) :: cmd.words := by
      obtain ⟨op, file, efile⟩ := r
      cases op <;> rfl
    rw [foldl_cons, ih, hwrap, mem_cons]
    simp only [mem_cons, exists_eq_or_imp]
    tauto

theorem words_back (n : ℕ) (cmd : Cmd) : (Nat.iterate Cmd.back n cmd).words = cmd.words := by
  induction n generalizing cmd with
  | zero => rfl
  | succ n ih => exact ih (.back cmd)

/-- The word of a redirection. -/
theorem word_mem_redirs {rs : List Redir} {r : Redir} (hr : r ∈ rs) :
    Token.word r.file r.efile ∈ rs.flatMap Redir.tokens :=
  mem_flatMap.2 ⟨r, hr, mem_cons_of_mem _ mem_cons_self⟩

/-- **The words of a command** are those of its tokens. -/
theorem words_of_derives (h : Derives X ts cmd) {w : ℕ × ℕ} (hw : w ∈ cmd.words) :
    Token.word w.1 w.2 ∈ ts := by
  induction h with
  | line n _ ih =>
    rw [words_back] at hw
    exact mem_append_left _ (ih hw)
  | lines n _ _ ih ih' =>
    rw [Cmd.words, words_back] at hw
    rcases mem_append.1 hw with hw | hw
    · exact mem_append_left _ (ih hw)
    · exact mem_append_right _ (mem_append_right _ (mem_cons_of_mem _ (ih' hw)))
  | pipe _ ih => exact ih hw
  | pipes _ _ ih ih' =>
    rcases mem_append.1 hw with hw | hw
    · exact mem_append_left _ (ih hw)
    · exact mem_append_right _ (mem_cons_of_mem _ (ih' hw))
  | block rs _ ih =>
    refine mem_cons_of_mem _ ?_
    rcases (words_wrap rs _ w).1 hw with hw | ⟨r, hr, rfl⟩
    · exact mem_append_left _ (ih hw)
    · exact mem_append_right _ (mem_cons_of_mem _ (word_mem_redirs hr))
  | words rs ws _ =>
    rcases (words_wrap _ _ w).1 hw with hw | ⟨r, hr, rfl⟩
    · obtain ⟨a, ha, rfl⟩ := mem_map.1 hw
      exact mem_append_right _ (mem_flatMap.2 ⟨a, ha, mem_cons_self⟩)
    · rcases mem_append.1 hr with hr | hr
      · exact mem_append_left _ (word_mem_redirs hr)
      · obtain ⟨a, ha, hr⟩ := mem_flatMap.1 hr
        exact mem_append_right _ (mem_flatMap.2 ⟨a, ha, mem_cons_of_mem _ (word_mem_redirs hr)⟩)

/-- **No word is overwritten**: a zero behind a word is not in another one. -/
theorem nulterminate_word (h : EndsAt m lo es) (hwords : ∀ w ∈ cmd.words, IsWord m lo es w.1 w.2)
    {w : ℕ × ℕ}
    (hw : w ∈ cmd.words) : HasString (es + 1) (nulterminate m cmd) w.1 (slice m w.1 (w.2 - w.1)) := by
  have hword := hwords w hw
  have hle := hword.le
  have hhigh := hword.high
  have hend : w.1 + (w.2 - w.1) = w.2 := by omega
  refine ⟨?_, fun i hi => ?_, ?_, fun b hb => ?_⟩
  · rw [length_slice]
    omega
  · rw [length_slice] at hi
    rw [getD_slice, if_pos hi, nulterminate_apply, if_neg]
    intro hin
    obtain ⟨w', hw', heq⟩ := mem_map.1 hin
    have hother := hwords w' hw'
    have hchar := hword.chars (w.1 + i) (by omega) (by omega)
    rw [← heq, hother.stop (by omega)] at hchar
    cases hchar
  · rw [length_slice, hend, nulterminate_apply, if_pos (mem_map_of_mem hw)]
  · obtain ⟨i, hi, rfl⟩ := mem_map.1 hb
    rw [mem_range] at hi
    exact h.nonzero _ (hword.low.trans (Nat.le_add_right ..)) (by omega)

/-! ## `parsecmd` -/

theorem strlen_spec {s n : ℕ} (hend : m (s + n) = 0) (hline : ∀ i < n, m (s + i) ≠ 0) {fuel k : ℕ}
    (hk : k ≤ n) (hfuel : n - k < fuel) : strlen m s fuel k = some n := by
  induction fuel generalizing k with
  | zero => exact absurd hfuel (Nat.not_lt_zero _)
  | succ fuel ih =>
    rw [strlen]
    rcases eq_or_lt_of_le hk with rfl | hlt
    · rw [if_pos hend]
    · rw [if_neg (hline k hlt)]
      exact ih hlt (by omega)

/-- **The shell parses its grammar**: on a line of `n` bytes `parsecmd` returns or panics, it returns
a command exactly when the tokens of the line derive it, and the words of the command are strings
then, as they were in the line. -/
theorem parsecmd_grammar (m : Mem) (s n : ℕ) (hend : m (s + n) = 0) (hline : ∀ i < n, m (s + i) ≠ 0)
    (fuel : ℕ) (hfuel : 4 * n + 4 ≤ fuel) :
    ∃ r, parsecmd m fuel s = some r ∧
      (∀ cmd, (∃ m', r = .ok (cmd, m')) ↔ Derives .line (tokens m (s + n) s) cmd) ∧
      ∀ cmd m', r = .ok (cmd, m') →
        ∀ w ∈ cmd.words, HasString (s + n + 1) m' w.1 (slice m w.1 (w.2 - w.1)) := by
  have h : EndsAt m s (s + n) := by
    refine ⟨hend, fun i hlow hlt => ?_⟩
    have := hline (i - s) (by omega)
    rwa [Nat.add_sub_cancel' hlow] at this
  have hs : Within s (s + n) s := ⟨le_rfl, Nat.le_add_right ..⟩
  have hlen := length_tokens_le h hs
  have hrounds : rounds .line (tokens m (s + n) s).length ≤ fuel := by
    dsimp only [rounds]
    omega
  have hcall : parsecmd m fuel s = andThen (parseline m (s + n) fuel s) fun r =>
      if skip m (s + n) r.2 ≠ s + n then panic .leftovers else ok (r.1, nulterminate m r.1) := by
    rw [parsecmd, strlen_spec hend hline (Nat.zero_le n) (by omega)]
    rfl
  obtain ⟨r, hr, hQ⟩ := parse_sound h .line hs hrounds
  -- the command of a derivation is the one that is returned
  have hfinds : ∀ cmd, Derives .line (tokens m (s + n) s) cmd →
      parsecmd m fuel s = ok (cmd, nulterminate m cmd) := by
    intro cmd hder
    obtain ⟨p', hparse, hp', hts'⟩ := parse_complete h hder (r := []) hs (append_nil _).symm
      (Or.inl rfl) hrounds
    have hskip : skip m (s + n) p' = s + n := by
      rcases skip_cases h hp' with ⟨-, heq⟩ | ⟨t, eq, -, -, hcons⟩
      · exact heq
      · rw [hts'] at hcons
        cases hcons
    rw [hcall, show parseline m (s + n) fuel s = ok (cmd, p') from hparse, andThen_ok]
    dsimp only
    rw [hskip, if_neg (not_not.2 rfl)]
  -- and a command that is returned is derived from all the tokens
  have hreturns : ∀ cmd m', parsecmd m fuel s = ok (cmd, m') →
      m' = nulterminate m cmd ∧ Derives .line (tokens m (s + n) s) cmd := by
    intro cmd m' hok
    rw [hcall, show parseline m (s + n) fuel s = some r from hr] at hok
    rcases r with e | ⟨cmd', p'⟩
    · cases hok
    · obtain ⟨hp', ts, hts, hder⟩ := hQ cmd' p' rfl
      change (if skip m (s + n) p' ≠ s + n then panic .leftovers
        else ok (cmd', nulterminate m cmd')) = _ at hok
      split_ifs at hok with hskip
      · cases hok
      · cases hok
        have hnil : tokens m (s + n) p' = [] := by
          rw [← tokens_skip hp'.2, not_not.1 hskip, tokens_end le_rfl]
        rw [hts, hnil, append_nil]
        exact ⟨rfl, hder⟩
  obtain ⟨r', hr'⟩ : ∃ r', parsecmd m fuel s = some r' := by
    rw [hcall, show parseline m (s + n) fuel s = some r from hr]
    rcases r with e | ⟨cmd', p'⟩
    · exact ⟨_, rfl⟩
    · change ∃ r', (if skip m (s + n) p' ≠ s + n then panic .leftovers
        else ok (cmd', nulterminate m cmd')) = some r'
      split_ifs
      · exact ⟨_, rfl⟩
      · exact ⟨_, rfl⟩
  refine ⟨r', hr', fun cmd => ⟨?_, fun hder => ?_⟩, fun cmd m' heq w hw => ?_⟩
  · rintro ⟨m', rfl⟩
    exact (hreturns cmd m' hr').2
  · exact ⟨_, Option.some.inj (hr'.symm.trans (hfinds cmd hder))⟩
  · subst heq
    obtain ⟨rfl, hder⟩ := hreturns cmd m' hr'
    exact nulterminate_word h (fun w hw => isWord_of_mem h hs (words_of_derives hder hw)) hw

/-- A list, a pipe, a redirection between two words, and a block. -/
theorem parsecmd_grammar_list :
    let m := ofList (ascii "a >f b|c&;(d)")
    let cmd := Cmd.list
      (.back (.pipe (.redir (.exec [(0, 1), (5, 6)]) 3 4 0x601 1) (.exec [(7, 8)]))) (.exec [(11, 12)])
    m (0 + 13) = 0 ∧ (∀ i < 13, m (0 + i) ≠ 0) ∧ Derives .line (tokens m (0 + 13) 0) cmd ∧
      ∃ m', parsecmd m 56 0 = ok (cmd, m') ∧
        ∀ w ∈ cmd.words, HasString 14 m' w.1 (slice m w.1 (w.2 - w.1)) := by
  intro m cmd
  have hend : m (0 + 13) = 0 := by decide
  have hline : ∀ i < 13, m (0 + i) ≠ 0 := by decide
  obtain ⟨r, hr, hiff, hwords⟩ := parsecmd_grammar m 0 13 hend hline 56 (by decide)
  have hrun : (parsecmd m 56 0).any (fun r => r.toOption.any fun x => decide (x.1 = cmd)) = true := by
    decide +kernel
  obtain ⟨r', hr', hok⟩ := (Option.any_eq_true _ _).1 hrun
  obtain rfl := Option.some.inj (hr.symm.trans hr')
  rcases r with e | ⟨cmd', m'⟩
  · cases hok
  · have hcmd : cmd' = cmd := of_decide_eq_true hok
    rw [hcmd] at hr hiff hwords
    exact ⟨hend, hline, (hiff cmd).1 ⟨m', rfl⟩, m', hr, hwords cmd m' rfl⟩

end AudioPlayer.Sh
