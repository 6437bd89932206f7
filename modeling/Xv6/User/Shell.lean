import Mathlib.Logic.Function.Iterate
import Xv6.Foundation.Fallible

/-! # The parser of the shell

`parsecmd` of the shell and the functions below it, over a string that ends with a NUL. The cursor
`*ps` is the state of the code; a pointer into the string is an offset. Reading behind the NUL and
writing behind `argv` are stops of their own, `Stop.outside`, so that one can ask whether they
happen. Loops and calls are cut off after `fuel` rounds with `Stop.unfinished`.

The second part is the grammar of the shell's language, over tokens, and the spelling of tokens in a
string.

* **`parsecmd`** — the code;
* **`Sentence`** — the language: a string and the command it says. -/

namespace Xv6.Shell

open Foundation

/-! ## Commands -/

/-- A parsed command (`struct cmd`), with words `W` for the strings in it. -/
inductive Cmd (W : Type)
  | exec (argv : List W)
  | redir (cmd : Cmd W) (file : W) (mode fd : Nat)
  | pipe (left right : Cmd W)
  | list (left right : Cmd W)
  | back (cmd : Cmd W)
  deriving DecidableEq

namespace Cmd

variable {W V : Type}

/-- `cmd->argv[argc] = q`, for the `struct execcmd` below the redirections that were put around
it. -/
def addArg : Cmd W → W → Cmd W
  | exec argv, w => exec (argv ++ [w])
  | redir cmd file mode fd, w => redir (cmd.addArg w) file mode fd
  | cmd, _ => cmd

/-- Words are read in another way. -/
def map (f : W → V) : Cmd W → Cmd V
  | exec argv => exec (argv.map f)
  | redir cmd file mode fd => redir (cmd.map f) (f file) mode fd
  | pipe left right => pipe (left.map f) (right.map f)
  | list left right => list (left.map f) (right.map f)
  | back cmd => back (cmd.map f)

/-- The words of a command. -/
def words : Cmd W → List W
  | exec argv => argv
  | redir cmd file _ _ => cmd.words ++ [file]
  | pipe left right => left.words ++ right.words
  | list left right => left.words ++ right.words
  | back cmd => cmd.words

end Cmd

/-- The beginning and the end of a word: `q` and `eq`. -/
abbrev Extent := Nat × Nat

/-! ## Tokens -/

/-- `whitespace`. -/
def whitespace : List UInt8 := [32, 9, 13, 10, 11]

/-- `symbols`. -/
def symbols : List UInt8 := [60, 124, 62, 38, 59, 40, 41]

/-- `'<'`. -/
def less : UInt8 := 60

/-- `'>'`. -/
def greater : UInt8 := 62

/-- `'|'`. -/
def bar : UInt8 := 124

/-- `'&'`. -/
def amp : UInt8 := 38

/-- `';'`. -/
def semi : UInt8 := 59

/-- `'('`. -/
def lparen : UInt8 := 40

/-- `')'`. -/
def rparen : UInt8 := 41

/-- `'+'`, what `gettoken` returns for `>>`. -/
def plus : UInt8 := 43

/-- `'a'`, what `gettoken` returns for a word. -/
def letterA : UInt8 := 97

/-- `MAXARGS`. -/
def maxArgs : Nat := 10

/-- `O_RDONLY`. -/
def readOnly : Nat := 0

/-- `O_WRONLY|O_CREATE`. -/
def writeCreate : Nat := 0x201

/-- Why the parser stops. -/
inductive Stop
  /-- `panic(msg)`. -/
  | panic (msg : String)
  /-- A character behind the NUL is read, or an entry behind `argv` is written. -/
  | outside
  /-- The rounds are used up. -/
  | unfinished
  deriving DecidableEq

/-- Code of the parser; its state is the cursor. -/
abbrev Parser (α : Type) := Fallible Stop Nat α

/-- `strlen`. -/
def strlen : List UInt8 → Nat
  | [] => 0
  | c :: cs => if c = 0 then 0 else strlen cs + 1

section Code

variable (buf : List UInt8) (es : Nat)

/-- `*s`. -/
def read : Parser UInt8 := do
  let s ← get
  match buf[s]? with
  | some c => pure c
  | none => throw .outside

/-- A loop `while(s < es && p(*s)) s++`, with what is left of the string. -/
def scan (p : UInt8 → Bool) : Nat → Parser PUnit
  | 0 => pure ⟨⟩
  | n + 1 => do
    let c ← read buf
    if p c then do
      modify (· + 1)
      scan p n
    else pure ⟨⟩

/-- The loop from the cursor to `es`. -/
def scanWhile (p : UInt8 → Bool) : Parser PUnit := do
  let s ← get
  scan buf p (es - s)

/-- `strchr(whitespace, c)`. -/
def isBlank (c : UInt8) : Bool := c ∈ whitespace

/-- A character of a word. -/
def isLetter (c : UInt8) : Bool := !(decide (c ∈ whitespace)) && !(decide (c ∈ symbols))

/-- The `switch` of `gettoken`. -/
def gettokenSwitch : Parser UInt8 := do
  let c ← read buf
  if c = 0 then pure c
  else if c = bar ∨ c = lparen ∨ c = rparen ∨ c = semi ∨ c = amp ∨ c = less then do
    modify (· + 1)
    pure c
  else if c = greater then do
    modify (· + 1)
    let d ← read buf
    if d = greater then do
      modify (· + 1)
      pure plus
    else pure c
  else do
    scanWhile buf es isLetter
    pure letterA

/-- `gettoken`. -/
def gettoken : Parser (UInt8 × Extent) := do
  scanWhile buf es isBlank
  let q ← get
  let ret ← gettokenSwitch buf es
  let eq ← get
  scanWhile buf es isBlank
  pure (ret, (q, eq))

/-- `peek`. -/
def peek (toks : List UInt8) : Parser Bool := do
  scanWhile buf es isBlank
  let c ← read buf
  pure (decide (c ≠ 0) && decide (c ∈ toks))

/-! ## The parser -/

/-- `parseredirs`. -/
def parseredirs : Nat → Cmd Extent → Parser (Cmd Extent)
  | 0, _ => throw .unfinished
  | fuel + 1, cmd => do
    if ← peek buf es [less, greater] then do
      let (tok, _) ← gettoken buf es
      let (tok', file) ← gettoken buf es
      stopIf (tok' ≠ letterA) (.panic "missing file for redirection")
      if tok = less then parseredirs fuel (.redir cmd file readOnly 0)
      else if tok = greater then parseredirs fuel (.redir cmd file writeCreate 1)
      else if tok = plus then parseredirs fuel (.redir cmd file writeCreate 1)
      else parseredirs fuel cmd
    else pure cmd

/-- The loop of `parseexec` over the words; `argc` of them were read. -/
def parseargs : Nat → Cmd Extent → Nat → Parser (Cmd Extent)
  | 0, _, _ => throw .unfinished
  | fuel + 1, ret, argc => do
    if ← peek buf es [bar, rparen, amp, semi] then do
      stopIf (maxArgs ≤ argc) .outside
      pure ret
    else do
      let (tok, w) ← gettoken buf es
      if tok = 0 then do
        stopIf (maxArgs ≤ argc) .outside
        pure ret
      else do
        stopIf (tok ≠ letterA) (.panic "syntax")
        stopIf (maxArgs ≤ argc) .outside
        stopIf (maxArgs ≤ argc + 1) (.panic "too many args")
        let ret ← parseredirs buf es fuel (ret.addArg w)
        parseargs fuel ret (argc + 1)

/-- The loop of `parseline`. -/
def parsebacks : Nat → Cmd Extent → Parser (Cmd Extent)
  | 0, _ => throw .unfinished
  | fuel + 1, cmd => do
    if ← peek buf es [amp] then do
      let _ ← gettoken buf es
      parsebacks fuel (.back cmd)
    else pure cmd

mutual

/-- `parseline`. -/
def parseline : Nat → Parser (Cmd Extent)
  | 0 => throw .unfinished
  | fuel + 1 => do
    let cmd ← parsepipe fuel
    let cmd ← parsebacks buf es fuel cmd
    if ← peek buf es [semi] then do
      let _ ← gettoken buf es
      let right ← parseline fuel
      pure (.list cmd right)
    else pure cmd

/-- `parsepipe`. -/
def parsepipe : Nat → Parser (Cmd Extent)
  | 0 => throw .unfinished
  | fuel + 1 => do
    let cmd ← parseexec fuel
    if ← peek buf es [bar] then do
      let _ ← gettoken buf es
      let right ← parsepipe fuel
      pure (.pipe cmd right)
    else pure cmd

/-- `parseexec`. -/
def parseexec : Nat → Parser (Cmd Extent)
  | 0 => throw .unfinished
  | fuel + 1 => do
    if ← peek buf es [lparen] then parseblock fuel
    else do
      let ret ← parseredirs buf es fuel (.exec [])
      parseargs buf es fuel ret 0

/-- `parseblock`. -/
def parseblock : Nat → Parser (Cmd Extent)
  | 0 => throw .unfinished
  | fuel + 1 => do
    let opened ← peek buf es [lparen]
    stopIf (opened = false) (.panic "parseblock")
    let _ ← gettoken buf es
    let cmd ← parseline fuel
    let closed ← peek buf es [rparen]
    stopIf (closed = false) (.panic "syntax - missing )")
    let _ ← gettoken buf es
    parseredirs buf es fuel cmd

end

end Code

/-- `nulterminate`: the string with a NUL behind every word. -/
def nulterminate : Cmd Extent → List UInt8 → List UInt8
  | .exec argv, buf => argv.foldl (fun buf w => buf.set w.2 0) buf
  | .redir cmd file _ _, buf => (nulterminate cmd buf).set file.2 0
  | .pipe left right, buf => nulterminate right (nulterminate left buf)
  | .list left right, buf => nulterminate right (nulterminate left buf)
  | .back cmd, buf => nulterminate cmd buf

/-- `parsecmd`: the command, and the string as it is then. -/
def parsecmd (fuel : Nat) (buf : List UInt8) : Parser (Cmd Extent × List UInt8) := do
  let es := strlen buf
  let cmd ← parseline buf es fuel
  let _ ← peek buf es []
  let s ← get
  stopIf (s ≠ es) (.panic "syntax")
  pure (cmd, nulterminate cmd buf)

/-- The string that starts at `q`. -/
def stringAt (buf : List UInt8) (q : Nat) : List UInt8 := (buf.drop q).takeWhile (· ≠ 0)

/-! ## The language -/

/-- Tokens of the grammar. -/
inductive Tok
  | less | greater | append | bar | amp | semi | lparen | rparen
  | word (w : List UInt8)
  deriving DecidableEq

/-- Commands of the grammar. -/
abbrev Tree := Cmd (List UInt8)

/-- The symbols that are one character, but for `>`. -/
def symbolOf (c : UInt8) : Option Tok :=
  if c = less then some .less
  else if c = bar then some .bar
  else if c = amp then some .amp
  else if c = semi then some .semi
  else if c = lparen then some .lparen
  else if c = rparen then some .rparen
  else none

/-- **Spelling**: blanks may stand before, between and behind tokens; a word is as long as it can
be; `>>` is one token. -/
inductive Spells : List UInt8 → List Tok → Prop
  | nil : Spells [] []
  | blank {c cs ts} (hc : c ∈ whitespace) : Spells cs ts → Spells (c :: cs) ts
  | symbol {c t cs ts} (hc : symbolOf c = some t) : Spells cs ts → Spells (c :: cs) (t :: ts)
  | greater {cs ts} (hcs : cs.head? ≠ some greater) : Spells cs ts →
      Spells (greater :: cs) (.greater :: ts)
  | append {cs ts} : Spells cs ts → Spells (greater :: greater :: cs) (.append :: ts)
  | word {w cs ts} (hne : w ≠ []) (hw : ∀ c ∈ w, c ∉ whitespace ∧ c ∉ symbols)
      (hcs : ∀ c ∈ cs.head?, c ∈ whitespace ∨ c ∈ symbols) : Spells cs ts →
        Spells (w ++ cs) (.word w :: ts)

/-- How a redirection opens its file, and the descriptor it replaces. -/
def Tok.redirection : Tok → Option (Nat × Nat)
  | .less => some (readOnly, 0)
  | .greater => some (writeCreate, 1)
  | .append => some (writeCreate, 1)
  | _ => none

/-- `redirs ::= {('<' | '>' | '>>') word}`, around a command. -/
inductive Redirs : Tree → List Tok → Tree → Prop
  | nil {c} : Redirs c [] c
  | cons {c t mode fd w ts d} (ht : t.redirection = some (mode, fd)) :
      Redirs (.redir c w mode fd) ts d → Redirs c (t :: .word w :: ts) d

/-- `{word redirs}` with `n` words. -/
inductive Args : Nat → Tree → List Tok → Tree → Prop
  | nil {c} : Args 0 c [] c
  | cons {n c w rs d ts e} : Redirs (c.addArg w) rs d → Args n d ts e →
      Args (n + 1) c (.word w :: (rs ++ ts)) e

/-- The other symbols of the grammar. -/
inductive NonTerminal
  | line | pipe | exec

/-- **The grammar**, with the command of each derivation. -/
inductive Derives : NonTerminal → List Tok → Tree → Prop
  /-- `exec ::= redirs {word redirs}`. -/
  | args {n rs c ts d} : Redirs (.exec []) rs c → Args n c ts d → n ≤ maxArgs - 1 →
      Derives .exec (rs ++ ts) d
  /-- `exec ::= '(' line ')' redirs`. -/
  | block {ts c rs d} : Derives .line ts c → Redirs c rs d →
      Derives .exec (.lparen :: (ts ++ .rparen :: rs)) d
  /-- `pipe ::= exec`. -/
  | single {ts c} : Derives .exec ts c → Derives .pipe ts c
  /-- `pipe ::= exec '|' pipe`. -/
  | pipe {ts c us d} : Derives .exec ts c → Derives .pipe us d →
      Derives .pipe (ts ++ .bar :: us) (.pipe c d)
  /-- `line ::= pipe {'&'}`. -/
  | line {ts c} (n : Nat) :
      Derives .pipe ts c → Derives .line (ts ++ List.replicate n .amp) (Cmd.back^[n] c)
  /-- `line ::= pipe {'&'} ';' line`. -/
  | list {ts c us d} (n : Nat) : Derives .pipe ts c → Derives .line us d →
      Derives .line (ts ++ (List.replicate n .amp ++ .semi :: us)) (.list (Cmd.back^[n] c) d)

/-- **The language of the shell**: the string `text` says the command `tree`. -/
def Sentence (text : List UInt8) (tree : Tree) : Prop :=
  ∃ ts, Spells text ts ∧ Derives .line ts tree

end Xv6.Shell
