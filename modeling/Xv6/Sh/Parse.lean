import Xv6.Sh.Grammar

namespace Xv6.Sh

structure Span where
  q : Nat
  eq : Nat
  deriving DecidableEq, Repr

inductive Stop where
  | panic (s : String)
  | overrun
  | fuel
  deriving DecidableEq, Repr

def Cmd.map {W V : Type} (f : W → V) : Cmd W → Cmd V
  | .exec argv => .exec (argv.map f)
  | .redir cmd file mode fd => .redir (cmd.map f) (f file) mode fd
  | .pipe left right => .pipe (left.map f) (right.map f)
  | .list left right => .list (left.map f) (right.map f)
  | .back cmd => .back (cmd.map f)

-- The loop `while(s < es && p(*s)) s++` over the characters that are left.
def skip (p : Char → Bool) : List Char → Nat → Nat
  | [], s => s
  | c :: cs, s => if p c then skip p cs (s + 1) else s

section Scanner

variable (str : List Char)

-- `str` ends at `es`, where the NUL is read.
def charAt (s : Nat) : Char := str.getD s '\x00'

def skipBlanks (s : Nat) : Nat := skip (whitespace.contains ·) (str.drop s) s

-- `q` and `eq` are used by the callers for words only.
def scan (q : Nat) : Option (Token Span) × Nat :=
  match charAt str q with
  | '\x00' => (none, q)
  | '|' => (some .pipe, q + 1)
  | '(' => (some .lparen, q + 1)
  | ')' => (some .rparen, q + 1)
  | ';' => (some .semi, q + 1)
  | '&' => (some .amp, q + 1)
  | '<' => (some .lt, q + 1)
  | '>' => if charAt str (q + 1) = '>' then (some .gtgt, q + 2) else (some .gt, q + 1)
  | _ =>
    let eq := skip wordChar (str.drop q) q
    (some (.word ⟨q, eq⟩), eq)

def gettoken (s : Nat) : Option (Token Span) × Nat :=
  let (tok, eq) := scan str (skipBlanks str s)
  (tok, skipBlanks str eq)

def peek (s : Nat) (toks : List Char) : Bool × Nat :=
  let s := skipBlanks str s
  (charAt str s != '\x00' && toks.contains (charAt str s), s)

end Scanner

section Parser

variable (str : List Char)

-- The execcmd that parseexec holds a pointer to is the one below the redirections.
def Cmd.pushArg {W : Type} : Cmd W → W → Cmd W
  | .exec argv, w => .exec (argv ++ [w])
  | .redir cmd file mode fd, w => .redir (cmd.pushArg w) file mode fd
  | cmd, _ => cmd

def parseredirs : Nat → Cmd Span → Nat → Except Stop (Cmd Span × Nat)
  | 0, _, _ => .error .fuel
  | fuel + 1, cmd, s =>
    match peek str s ['<', '>'] with
    | (false, s) => .ok (cmd, s)
    | (true, s) =>
      let (tok, s) := gettoken str s
      match gettoken str s with
      | (some (.word file), s) =>
        match tok with
        | some .lt => parseredirs fuel (.redir cmd file .rdonly 0) s
        | some .gt => parseredirs fuel (.redir cmd file .wronlyCreate 1) s
        | some .gtgt => parseredirs fuel (.redir cmd file .wronlyCreate 1) s
        | _ => parseredirs fuel cmd s
      | _ => .error (.panic "missing file for redirection")

def endargs (ret : Cmd Span) (argc : Nat) (s : Nat) : Except Stop (Cmd Span × Nat) :=
  if argc < maxargs then .ok (ret, s) else .error .overrun

def parseargs : Nat → Cmd Span → Nat → Nat → Except Stop (Cmd Span × Nat)
  | 0, _, _, _ => .error .fuel
  | fuel + 1, ret, argc, s =>
    match peek str s ['|', ')', '&', ';'] with
    | (true, s) => endargs ret argc s
    | (false, s) =>
      match gettoken str s with
      | (none, s) => endargs ret argc s
      | (some (.word w), s) =>
        if argc < maxargs then
          if argc + 1 ≥ maxargs then .error (.panic "too many args")
          else do
            let (ret, s) ← parseredirs str fuel (ret.pushArg w) s
            parseargs fuel ret (argc + 1) s
        else .error .overrun
      | (some _, _) => .error (.panic "syntax")

def parsebacks : Nat → Cmd Span → Nat → Except Stop (Cmd Span × Nat)
  | 0, _, _ => .error .fuel
  | fuel + 1, cmd, s =>
    match peek str s ['&'] with
    | (false, s) => .ok (cmd, s)
    | (true, s) => parsebacks fuel (.back cmd) (gettoken str s).2

def endblock (fuel : Nat) (cmd : Cmd Span) (s : Nat) : Except Stop (Cmd Span × Nat) :=
  match peek str s [')'] with
  | (false, _) => .error (.panic "syntax - missing )")
  | (true, s) => parseredirs str fuel cmd (gettoken str s).2

mutual

def parseline : Nat → Nat → Except Stop (Cmd Span × Nat)
  | 0, _ => .error .fuel
  | fuel + 1, s => do
    let (cmd, s) ← parsepipe fuel s
    let (cmd, s) ← parsebacks str fuel cmd s
    match peek str s [';'] with
    | (false, s) => .ok (cmd, s)
    | (true, s) =>
      let (right, s) ← parseline fuel (gettoken str s).2
      .ok (.list cmd right, s)

def parsepipe : Nat → Nat → Except Stop (Cmd Span × Nat)
  | 0, _ => .error .fuel
  | fuel + 1, s => do
    let (cmd, s) ← parseexec fuel s
    match peek str s ['|'] with
    | (false, s) => .ok (cmd, s)
    | (true, s) =>
      let (right, s) ← parsepipe fuel (gettoken str s).2
      .ok (.pipe cmd right, s)

def parseblock : Nat → Nat → Except Stop (Cmd Span × Nat)
  | 0, _ => .error .fuel
  | fuel + 1, s =>
    match peek str s ['('] with
    | (false, _) => .error (.panic "parseblock")
    | (true, s) => do
      let (cmd, s) ← parseline fuel (gettoken str s).2
      endblock str fuel cmd s

def parseexec : Nat → Nat → Except Stop (Cmd Span × Nat)
  | 0, _ => .error .fuel
  | fuel + 1, s =>
    match peek str s ['('] with
    | (true, s) => parseblock fuel s
    | (false, s) => do
      let (ret, s) ← parseredirs str fuel (.exec []) s
      parseargs str fuel ret 0 s

end

end Parser

def Cmd.nulterminate : Cmd Span → List Char → List Char
  | .exec argv, buf => argv.foldl (fun buf w => buf.set w.eq '\x00') buf
  | .redir cmd file _ _, buf => (cmd.nulterminate buf).set file.eq '\x00'
  | .pipe left right, buf | .list left right, buf => right.nulterminate (left.nulterminate buf)
  | .back cmd, buf => cmd.nulterminate buf

def stringAt (buf : List Char) (s : Nat) : List Char := (buf.drop s).takeWhile (· != '\x00')

def parsecmd (fuel : Nat) (buf : List Char) : Except Stop (Cmd Span × List Char) := do
  let str := stringAt buf 0
  let (cmd, s) ← parseline str fuel 0
  let (_, s) := peek str s []
  if s != str.length then .error (.panic "syntax")
  else .ok (cmd, cmd.nulterminate buf)

end Xv6.Sh
