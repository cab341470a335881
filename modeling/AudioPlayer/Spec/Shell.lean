import AudioPlayer.Spec.DiskFormat

/-!
# The parser of the shell (`user/sh.c`)

The line lies in memory, and pointers into it are addresses. The parser moves a position along it;
`es` is the end of the line. Each loop and each recursion has a number of rounds that it may take; a
parser that does not return within them is `none`, and one that panics gives the panic.

The calls of `malloc` in the constructors succeed.
-/

namespace AudioPlayer.Sh

open Bytes

/-- `MAXARGS`. -/
abbrev maxargs : ℕ := 10

/-- `struct cmd`. The pointers `argv[i]` and `eargv[i]` of an `execcmd` are pairs. -/
inductive Cmd
  | exec (argv : List (ℕ × ℕ))
  | redir (cmd : Cmd) (file efile mode fd : ℕ)
  | pipe (left right : Cmd)
  | list (left right : Cmd)
  | back (cmd : Cmd)
  deriving DecidableEq

/-- Where the parser panics. -/
inductive Panic
  | leftovers
  | unexpected
  | missingFile
  | parseblock
  | missingParen
  | tooManyArgs
  deriving DecidableEq

/-- What it says. -/
def Panic.message : Panic → String
  | .leftovers => "syntax"
  | .unexpected => "syntax"
  | .missingFile => "missing file for redirection"
  | .parseblock => "parseblock"
  | .missingParen => "syntax - missing )"
  | .tooManyArgs => "too many args"

/-- `whitespace`. -/
def whitespace : List UInt8 := ascii " \t\r\n\x0b"

/-- `symbols`. -/
def symbols : List UInt8 := ascii "<|>&;()"

/-! ## Tokens -/

section Tokens

variable (m : Mem) (es : ℕ)

/-- `while(s < es && p(*s)) s++`, with the number of bytes before `es`. -/
def scanLoop (p : UInt8 → Bool) : ℕ → ℕ → ℕ
  | 0, s => s
  | n + 1, s => if p (m s) then scanLoop p n (s + 1) else s

def scan (p : UInt8 → Bool) (s : ℕ) : ℕ := scanLoop m p (es - s) s

/-- The loops over white space. -/
def skip (s : ℕ) : ℕ := scan m es (fun c => c ∈ whitespace) s

/-- The loop over a word. -/
def wordEnd (s : ℕ) : ℕ := scan m es (fun c => c ∉ whitespace && c ∉ symbols) s

/-- The `switch` of `gettoken`: what it returns, and `*eq`. -/
def readToken (q : ℕ) : UInt8 × ℕ :=
  if m q = 0 then (0, q)
  else if m q ∈ ascii "|();&<" then (m q, q + 1)
  else if m q = 62 then
    if m (q + 1) = 62 then (43, q + 2) else (62, q + 1)
  else (97, wordEnd m es q)

/-- `gettoken`: what it returns, `*q`, `*eq` and `*ps`. -/
def gettoken (s : ℕ) : UInt8 × ℕ × ℕ × ℕ :=
  let q := skip m es s
  let (ret, eq) := readToken m es q
  (ret, q, eq, skip m es eq)

/-- `peek`: `*ps`, and whether one of `toks` is next. -/
def peek (toks : String) (s : ℕ) : ℕ × Bool :=
  let s := skip m es s
  (s, m s ≠ 0 && m s ∈ ascii toks)

end Tokens

/-! ## The parser -/

/-- A call returns, or panics, or takes too many rounds. -/
abbrev Result (α : Type) := Option (Except Panic α)

/-- What comes behind a call that returns. -/
def andThen {α β : Type} (r : Result α) (f : α → Result β) : Result β :=
  match r with
  | none => none
  | some (.error e) => some (.error e)
  | some (.ok a) => f a

def ok {α : Type} (a : α) : Result α := some (.ok a)

def panic {α : Type} (e : Panic) : Result α := some (.error e)

/-- The `switch` of `parseredirs`. -/
def redircmd (tok : UInt8) (cmd : Cmd) (q eq : ℕ) : Cmd :=
  if tok = 60 then .redir cmd q eq 0 0
  else if tok = 62 then .redir cmd q eq (oWronly ||| oCreate ||| oTrunc) 1
  else if tok = 43 then .redir cmd q eq (oWronly ||| oCreate) 1
  else cmd

/-- `argv[argc]` and `eargv[argc]` of the `execcmd` that `ret` leads to. -/
def addArg (q eq : ℕ) : Cmd → Cmd
  | .exec argv => .exec (argv ++ [(q, eq)])
  | .redir cmd file efile mode fd => .redir (addArg q eq cmd) file efile mode fd
  | cmd => cmd

section Parser

variable (m : Mem) (es : ℕ)

/-- `parseredirs`. -/
def parseredirs : ℕ → Cmd → ℕ → Result (Cmd × ℕ)
  | 0, _, _ => none
  | fuel + 1, cmd, s =>
    let (s, yes) := peek m es "<>" s
    if yes then
      let (tok, _, _, s) := gettoken m es s
      let (ret, q, eq, s) := gettoken m es s
      if ret ≠ 97 then panic .missingFile
      else parseredirs fuel (redircmd tok cmd q eq) s
    else ok (cmd, s)

/-- The loop of `parseline`. -/
def parsebacks : ℕ → Cmd → ℕ → Result (Cmd × ℕ)
  | 0, _, _ => none
  | fuel + 1, cmd, s =>
    let (s, yes) := peek m es "&" s
    if yes then
      let (_, _, _, s) := gettoken m es s
      parsebacks fuel (.back cmd) s
    else ok (cmd, s)

/-- The loop of `parseexec`. -/
def parseargs : ℕ → ℕ → Cmd → ℕ → Result (Cmd × ℕ)
  | 0, _, _, _ => none
  | fuel + 1, argc, ret, s =>
    let (s, yes) := peek m es "|)&;" s
    if yes then ok (ret, s)
    else
      let (tok, q, eq, s) := gettoken m es s
      if tok = 0 then ok (ret, s)
      else if tok ≠ 97 then panic .unexpected
      else if argc + 1 ≥ maxargs then panic .tooManyArgs
      else
        andThen (parseredirs m es fuel (addArg q eq ret) s) fun (ret, s) =>
          parseargs fuel (argc + 1) ret s

mutual

/-- `parseline`. -/
def parseline : ℕ → ℕ → Result (Cmd × ℕ)
  | 0, _ => none
  | fuel + 1, s =>
    andThen (parsepipe fuel s) fun (cmd, s) =>
      andThen (parsebacks m es fuel cmd s) fun (cmd, s) =>
        let (s, yes) := peek m es ";" s
        if yes then
          let (_, _, _, s) := gettoken m es s
          andThen (parseline fuel s) fun (right, s) => ok (.list cmd right, s)
        else ok (cmd, s)

/-- `parsepipe`. -/
def parsepipe : ℕ → ℕ → Result (Cmd × ℕ)
  | 0, _ => none
  | fuel + 1, s =>
    andThen (parseexec fuel s) fun (cmd, s) =>
      let (s, yes) := peek m es "|" s
      if yes then
        let (_, _, _, s) := gettoken m es s
        andThen (parsepipe fuel s) fun (right, s) => ok (.pipe cmd right, s)
      else ok (cmd, s)

/-- `parseexec`. -/
def parseexec : ℕ → ℕ → Result (Cmd × ℕ)
  | 0, _ => none
  | fuel + 1, s =>
    let (s, yes) := peek m es "(" s
    if yes then parseblock fuel s
    else
      andThen (parseredirs m es fuel (.exec []) s) fun (ret, s) => parseargs m es fuel 0 ret s

/-- `parseblock`. -/
def parseblock : ℕ → ℕ → Result (Cmd × ℕ)
  | 0, _ => none
  | fuel + 1, s =>
    let (s, yes) := peek m es "(" s
    if !yes then panic .parseblock
    else
      let (_, _, _, s) := gettoken m es s
      andThen (parseline fuel s) fun (cmd, s) =>
        let (s, yes) := peek m es ")" s
        if !yes then panic .missingParen
        else
          let (_, _, _, s) := gettoken m es s
          parseredirs m es fuel cmd s

end

end Parser

/-- `nulterminate`. -/
def nulterminate (m : Mem) : Cmd → Mem
  | .exec argv => argv.foldl (fun m arg => Function.update m arg.2 0) m
  | .redir cmd _ efile _ _ => Function.update (nulterminate m cmd) efile 0
  | .pipe left right => nulterminate (nulterminate m left) right
  | .list left right => nulterminate (nulterminate m left) right
  | .back cmd => nulterminate m cmd

/-- `strlen`, from the byte `n` on. -/
def strlen (m : Mem) (s : ℕ) : ℕ → ℕ → Option ℕ
  | 0, _ => none
  | fuel + 1, n => if m (s + n) = 0 then some n else strlen m s fuel (n + 1)

/-- `parsecmd`, with the line as it leaves it. -/
def parsecmd (m : Mem) (fuel s : ℕ) : Result (Cmd × Mem) :=
  (strlen m s fuel 0).bind fun n =>
    let es := s + n
    andThen (parseline m es fuel s) fun (cmd, s) =>
      let (s, _) := peek m es "" s
      if s ≠ es then panic .leftovers else ok (cmd, nulterminate m cmd)

end AudioPlayer.Sh
