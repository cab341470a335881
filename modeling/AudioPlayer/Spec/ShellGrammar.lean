import AudioPlayer.Spec.Shell
import Mathlib.Logic.Function.Iterate

/-!
# The grammar of the shell

What the shell is meant to accept: the tokens of a line, and the commands that are derived from them.
A word token is given by where it begins and ends.

* line ::= pipe '&'* [';' line]
* pipe ::= exec ['|' pipe]
* exec ::= '(' line ')' redir* | redir* (word redir*)*, with fewer than `MAXARGS` words
* redir ::= ('<' | '>' | '>>') word
-/

namespace AudioPlayer.Sh

open Bytes

inductive Token
  | bar
  | lpar
  | rpar
  | semi
  | amp
  | lt
  | gt
  | gtgt
  | word (q eq : ℕ)
  deriving DecidableEq

/-- A byte of a word. -/
def wordChar (c : UInt8) : Bool := c ∉ whitespace && c ∉ symbols

/-- The tokens of a line that begins at `p`, of which the first bytes, as many as the first argument
says, belong to the last token. -/
def lex : ℕ → ℕ → List UInt8 → List Token
  | _, _, [] => []
  | k + 1, p, _ :: cs => lex k (p + 1) cs
  | 0, p, c :: cs =>
    if c ∈ whitespace then lex 0 (p + 1) cs
    else if c = 124 then .bar :: lex 0 (p + 1) cs
    else if c = 40 then .lpar :: lex 0 (p + 1) cs
    else if c = 41 then .rpar :: lex 0 (p + 1) cs
    else if c = 59 then .semi :: lex 0 (p + 1) cs
    else if c = 38 then .amp :: lex 0 (p + 1) cs
    else if c = 60 then .lt :: lex 0 (p + 1) cs
    else if c = 62 then
      if cs.head? = some 62 then .gtgt :: lex 1 (p + 1) cs else .gt :: lex 0 (p + 1) cs
    else
      let n := (cs.takeWhile wordChar).length
      .word p (p + 1 + n) :: lex n (p + 1) cs

/-- The tokens of the line from `p` up to `es`. -/
def tokens (m : Mem) (es p : ℕ) : List Token := lex 0 p (slice m p (es - p))

inductive RedirOp
  | input
  | output
  | append

structure Redir where
  op : RedirOp
  file : ℕ
  efile : ℕ

def RedirOp.token : RedirOp → Token
  | .input => .lt
  | .output => .gt
  | .append => .gtgt

def Redir.tokens (r : Redir) : List Token := [r.op.token, .word r.file r.efile]

/-- The command with the redirection. -/
def Redir.wrap (cmd : Cmd) (r : Redir) : Cmd :=
  match r.op with
  | .input => .redir cmd r.file r.efile 0 0
  | .output => .redir cmd r.file r.efile (oWronly ||| oCreate ||| oTrunc) 1
  | .append => .redir cmd r.file r.efile (oWronly ||| oCreate) 1

/-- A word with the redirections behind it. -/
structure Arg where
  q : ℕ
  eq : ℕ
  redirs : List Redir

def Arg.tokens (w : Arg) : List Token := .word w.q w.eq :: w.redirs.flatMap Redir.tokens

inductive NonTerminal
  | line
  | pipe
  | exec

/-- **Derivations**, each with its tree. -/
inductive Derives : NonTerminal → List Token → Cmd → Prop
  | line {ts : List Token} {cmd : Cmd} (n : ℕ) (h : Derives .pipe ts cmd) :
    Derives .line (ts ++ List.replicate n .amp) (Nat.iterate Cmd.back n cmd)
  | lines {ts ts' : List Token} {cmd right : Cmd} (n : ℕ) (h : Derives .pipe ts cmd)
    (h' : Derives .line ts' right) :
    Derives .line (ts ++ (List.replicate n .amp ++ .semi :: ts')) (.list (Nat.iterate Cmd.back n cmd) right)
  | pipe {ts : List Token} {cmd : Cmd} (h : Derives .exec ts cmd) : Derives .pipe ts cmd
  | pipes {ts ts' : List Token} {cmd right : Cmd} (h : Derives .exec ts cmd) (h' : Derives .pipe ts' right) :
    Derives .pipe (ts ++ .bar :: ts') (.pipe cmd right)
  | block {ts : List Token} {cmd : Cmd} (rs : List Redir) (h : Derives .line ts cmd) :
    Derives .exec (.lpar :: (ts ++ .rpar :: rs.flatMap Redir.tokens)) (rs.foldl Redir.wrap cmd)
  | words (rs : List Redir) (ws : List Arg) (h : ws.length < maxargs) :
    Derives .exec (rs.flatMap Redir.tokens ++ ws.flatMap Arg.tokens)
      ((rs ++ ws.flatMap Arg.redirs).foldl Redir.wrap (.exec (ws.map fun w => (w.q, w.eq))))

/-- The words of a command: its arguments and the files of its redirections. -/
def Cmd.words : Cmd → List (ℕ × ℕ)
  | .exec argv => argv
  | .redir cmd file efile _ _ => (file, efile) :: cmd.words
  | .pipe left right => left.words ++ right.words
  | .list left right => left.words ++ right.words
  | .back cmd => cmd.words

end AudioPlayer.Sh
