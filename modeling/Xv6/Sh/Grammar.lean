import Mathlib.Logic.Function.Iterate
import Xv6.Sh.Basic

namespace Xv6.Sh

abbrev maxargs : Nat := 10

-- A character of the source is a byte; nothing below depends on there being no others.
def whitespace : List Char := [' ', '\t', '\r', '\n', '\x0b']

def symbols : List Char := ['<', '|', '>', '&', ';', '(', ')']

def wordChar (c : Char) : Bool := !whitespace.contains c && !symbols.contains c

inductive Token (W : Type) where
  | pipe
  | lparen
  | rparen
  | semi
  | amp
  | lt
  | gt
  | gtgt
  | word (w : W)
  deriving DecidableEq, Repr

variable {W V : Type}

def Token.map (f : W → V) : Token W → Token V
  | .pipe => .pipe
  | .lparen => .lparen
  | .rparen => .rparen
  | .semi => .semi
  | .amp => .amp
  | .lt => .lt
  | .gt => .gt
  | .gtgt => .gtgt
  | .word w => .word (f w)

def tokens : List Char → List (Token (List Char))
  | [] => []
  | '|' :: cs => .pipe :: tokens cs
  | '(' :: cs => .lparen :: tokens cs
  | ')' :: cs => .rparen :: tokens cs
  | ';' :: cs => .semi :: tokens cs
  | '&' :: cs => .amp :: tokens cs
  | '<' :: cs => .lt :: tokens cs
  | '>' :: '>' :: cs => .gtgt :: tokens cs
  | '>' :: cs => .gt :: tokens cs
  | c :: cs =>
    if whitespace.contains c then tokens cs
    else .word (c :: cs.takeWhile wordChar) :: tokens (cs.dropWhile wordChar)
termination_by cs => cs.length
decreasing_by
  all_goals
    have := (List.dropWhile_suffix (l := cs) wordChar).length_le
    simp only [List.length_cons]
    omega

inductive Direction where
  | input
  | output
  | append
  deriving DecidableEq, Repr

def Direction.token : Direction → Token W
  | .input => .lt
  | .output => .gt
  | .append => .gtgt

structure Redir (W : Type) where
  dir : Direction
  file : W

namespace Redir

def tokens (r : Redir W) : List (Token W) := [r.dir.token, .word r.file]

def wrap (cmd : Cmd W) (r : Redir W) : Cmd W :=
  match r.dir with
  | .input => .redir cmd r.file .rdonly 0
  | .output | .append => .redir cmd r.file .wronlyCreate 1

end Redir

inductive Phrase where
  | line
  | pipe
  | exec
  deriving DecidableEq, Repr

-- line ::= pipe '&'* (';' line)?        pipe ::= exec ('|' pipe)?
-- exec ::= '(' line ')' redir* | redir* (word redir*)*
inductive Derives : Phrase → List (Token W) → Cmd W → Prop
  | line {ts : List (Token W)} {c : Cmd W} (n : Nat) (h : Derives .pipe ts c) :
      Derives .line (ts ++ List.replicate n .amp) (Cmd.back^[n] c)
  | list {ts us : List (Token W)} {c d : Cmd W} (n : Nat) (h : Derives .pipe ts c)
      (h' : Derives .line us d) :
      Derives .line (ts ++ List.replicate n .amp ++ .semi :: us) (.list (Cmd.back^[n] c) d)
  | exec {ts : List (Token W)} {c : Cmd W} (h : Derives .exec ts c) : Derives .pipe ts c
  | pipe {ts us : List (Token W)} {c d : Cmd W} (h : Derives .exec ts c)
      (h' : Derives .pipe us d) : Derives .pipe (ts ++ .pipe :: us) (.pipe c d)
  | block {ts : List (Token W)} {c : Cmd W} (rs : List (Redir W)) (h : Derives .line ts c) :
      Derives .exec (.lparen :: ts ++ .rparen :: rs.flatMap Redir.tokens) (rs.foldl Redir.wrap c)
  | words (rs : List (Redir W)) (args : List (W × List (Redir W)))
      (h : args.length ≤ maxargs - 1) :
      Derives .exec
        (rs.flatMap Redir.tokens ++
          args.flatMap fun arg => .word arg.1 :: arg.2.flatMap Redir.tokens)
        ((rs ++ args.flatMap Prod.snd).foldl Redir.wrap (.exec (args.map Prod.fst)))

end Xv6.Sh
