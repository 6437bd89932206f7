import Mathlib.Data.List.Forall2
import Mathlib.Data.List.TakeWhile
import Xv6.Foundation.Predictive
import Xv6.User.Shell

/-! # The parser of the shell accepts its grammar

The scanner first: at a place where tokens `ts` are spelled, `peek` and `gettoken` see the first of
them. Then the functions of the parser, each as a predictive parser of its symbol of the grammar,
with `Follow` for what may come behind it.

* **`parse_all`** — `parseline`, `parsepipe`, `parseexec` and `parseblock` parse their symbols;
* **`parsecmd_exact`** — `parsecmd` returns the command that the string says, and panics if there is
  none. -/

namespace Xv6.Shell

open Foundation

variable {text cs : List UInt8} {p : Nat}

/-! ## The cursor -/

/-- The cursor is at `p`, and `cs` is left of the string. -/
def Rest (text : List UInt8) (p : Nat) (cs : List UInt8) : Prop :=
  ∃ pre, text = pre ++ cs ∧ pre.length = p

theorem Rest.advance {l : List UInt8} (h : Rest text p (l ++ cs)) :
    Rest text (p + l.length) cs := by
  obtain ⟨pre, rfl, rfl⟩ := h
  exact ⟨pre ++ l, by rw [List.append_assoc], List.length_append⟩

theorem Rest.next {c : UInt8} (h : Rest text p (c :: cs)) : Rest text (p + 1) cs :=
  Rest.advance (l := [c]) h

theorem Rest.length (h : Rest text p cs) : text.length - p = cs.length := by
  obtain ⟨pre, rfl, rfl⟩ := h
  rw [List.length_append, Nat.add_sub_cancel_left]

theorem Rest.eq_length_iff (h : Rest text p cs) : p = text.length ↔ cs = [] := by
  obtain ⟨pre, rfl, rfl⟩ := h
  rw [List.length_append, ← List.length_eq_zero_iff]
  omega

theorem Rest.subset (h : Rest text p cs) : cs ⊆ text := by
  obtain ⟨pre, rfl, -⟩ := h
  exact List.subset_append_right pre cs

theorem strlen_append (hz : 0 ∉ text) : strlen (text ++ [0]) = text.length := by
  induction text with
  | nil => rfl
  | cons c cs ih =>
    obtain ⟨hc, hcs⟩ := List.ne_and_not_mem_of_not_mem_cons hz
    rw [List.cons_append, strlen, if_neg hc.symm, ih hcs, List.length_cons]

theorem returns_read (h : Rest text p cs) : Returns (read (text ++ [0])) p (cs.headD 0) p := by
  obtain ⟨pre, rfl, rfl⟩ := h
  have hget : (pre ++ cs ++ [0])[pre.length]? = some (cs.headD 0) := by
    rw [List.append_assoc, List.getElem?_append_right le_rfl, Nat.sub_self]
    cases cs with
    | nil | cons c cs => rfl
  refine returns_bind.2 ⟨pre.length, pre.length, returns_get.2 ⟨rfl, rfl⟩, ?_⟩
  rw [hget]
  exact returns_pure.2 ⟨rfl, rfl⟩

theorem returns_scan (q : UInt8 → Bool) (h : Rest text p cs) :
    Returns (scan (text ++ [0]) q cs.length) p ⟨⟩ (p + (cs.takeWhile q).length) := by
  induction cs generalizing p with
  | nil => exact returns_pure.2 ⟨rfl, rfl⟩
  | cons c cs ih =>
    refine returns_bind.2 ⟨c, p, returns_read h, ?_⟩
    by_cases hc : q c
    · rw [if_pos hc, List.takeWhile_cons_of_pos hc, List.length_cons]
      refine returns_bind.2 ⟨⟨⟩, p + 1, returns_modify.2 rfl, ?_⟩
      rw [Nat.add_comm (cs.takeWhile q).length, ← Nat.add_assoc]
      exact ih h.next
    · rw [if_neg hc, List.takeWhile_cons_of_neg hc]
      exact returns_pure.2 ⟨rfl, rfl⟩

theorem returns_scanWhile (q : UInt8 → Bool) (h : Rest text p cs) :
    Returns (scanWhile (text ++ [0]) text.length q) p ⟨⟩ (p + (cs.takeWhile q).length) := by
  refine returns_bind.2 ⟨p, p, returns_get.2 ⟨rfl, rfl⟩, ?_⟩
  rw [h.length]
  exact returns_scan q h

theorem Rest.dropWhile (q : UInt8 → Bool) (h : Rest text p cs) :
    Rest text (p + (cs.takeWhile q).length) (cs.dropWhile q) :=
  Rest.advance (by rwa [List.takeWhile_append_dropWhile])

/-! ## Spelling -/

variable {ts : List Tok}

/-- The cursor is at `p`, and `ts` is spelled behind it. -/
def At (text : List UInt8) (p : Nat) (ts : List Tok) : Prop := ∃ cs, Rest text p cs ∧ Spells cs ts

/-- What `gettoken` returns for a token. -/
def Tok.code : Tok → UInt8
  | .less => Shell.less
  | .greater => Shell.greater
  | .append => Shell.plus
  | .bar => Shell.bar
  | .amp => Shell.amp
  | .semi => Shell.semi
  | .lparen => Shell.lparen
  | .rparen => Shell.rparen
  | .word _ => letterA

/-- The first character of a symbol. -/
def Tok.first : Tok → Option UInt8
  | .less => some Shell.less
  | .greater => some Shell.greater
  | .append => some Shell.greater
  | .bar => some Shell.bar
  | .amp => some Shell.amp
  | .semi => some Shell.semi
  | .lparen => some Shell.lparen
  | .rparen => some Shell.rparen
  | .word _ => none

variable {t : Tok} {toks : List UInt8} {d : Tree} {rest : List Tok}

theorem symbolOf_eq {c : UInt8} (h : symbolOf c = some t) :
    (c = bar ∨ c = lparen ∨ c = rparen ∨ c = semi ∨ c = amp ∨ c = less) ∧ t.code = c ∧
      t.first = some c := by
  unfold symbolOf at h
  split_ifs at h
  all_goals
    cases h
    subst_vars
    decide

theorem of_symbol {c : UInt8} (hc : c = bar ∨ c = lparen ∨ c = rparen ∨ c = semi ∨
    c = amp ∨ c = less) :
    c ∉ whitespace ∧ c ∈ symbols ∧ c ≠ 0 := by
  rcases hc with rfl | rfl | rfl | rfl | rfl | rfl
  all_goals decide

theorem mem_symbols {c : UInt8} (hc : c ∈ symbols) :
    (∃ t, symbolOf c = some t) ∨ c = greater := by
  simp only [symbols, List.mem_cons, List.not_mem_nil, or_false] at hc
  rcases hc with rfl | rfl | rfl | rfl | rfl | rfl | rfl
  all_goals first | exact .inr rfl | exact .inl ⟨_, rfl⟩

/-- **The first token**, with no blanks before it. -/
inductive First : List UInt8 → List Tok → Prop
  | nil : First [] []
  | symbol {c : UInt8} {t : Tok} {cs : List UInt8} {ts : List Tok} (hc : symbolOf c = some t) :
      Spells cs ts → First (c :: cs) (t :: ts)
  | greater {cs : List UInt8} {ts : List Tok} (hcs : cs.head? ≠ some greater) :
      Spells cs ts → First (greater :: cs) (.greater :: ts)
  | append {cs : List UInt8} {ts : List Tok} :
      Spells cs ts → First (greater :: greater :: cs) (.append :: ts)
  | word {c : UInt8} {w cs : List UInt8} {ts : List Tok} (hw : ∀ d ∈ c ::
      w, d ∉ whitespace ∧ d ∉ symbols)
      (hcs : ∀ d ∈ cs.head?, d ∈ whitespace ∨ d ∈ symbols) : Spells cs ts →
      First (c :: w ++ cs) (.word (c :: w) :: ts)

theorem First.spells (h : First cs ts) : Spells cs ts := by
  cases h with
  | nil => exact .nil
  | symbol hc h => exact .symbol hc h
  | greater hcs h => exact .greater hcs h
  | append h => exact .append h
  | word hw hcs h => exact .word (List.cons_ne_nil _ _) hw hcs h

theorem First.eq_nil_iff (h : First cs ts) : cs = [] ↔ ts = [] := by
  cases h with
  | nil => exact ⟨fun _ => rfl, fun _ => rfl⟩
  | symbol _ _ | greater _ _ | append _ | word _ _ _ => exact ⟨nofun, nofun⟩

theorem Spells.first (h : Spells cs ts) : First (cs.dropWhile isBlank) ts := by
  have stay : ∀ {c cs}, c ∉ whitespace → (c :: cs).dropWhile isBlank = c :: cs := fun hc =>
    List.dropWhile_cons_of_neg (by simpa [isBlank] using hc)
  induction h with
  | nil => exact .nil
  | @blank c cs ts hc _ ih =>
    have hskip : (c :: cs).dropWhile isBlank = cs.dropWhile isBlank :=
      List.dropWhile_cons_of_pos (by simpa [isBlank] using hc)
    rw [hskip]
    exact ih
  | symbol hc h _ =>
    rw [stay (of_symbol (symbolOf_eq hc).1).1]
    exact .symbol hc h
  | greater hcs h _ =>
    rw [stay (by decide)]
    exact .greater hcs h
  | append h _ =>
    rw [stay (by decide)]
    exact .append h
  | @word w cs ts hne hw hcs h _ =>
    cases w with
    | nil => exact absurd rfl hne
    | cons c w =>
      rw [List.cons_append, stay (hw c List.mem_cons_self).1]
      exact .word hw hcs h

theorem isLetter_iff {c : UInt8} : isLetter c = true ↔ c ∉ whitespace ∧ c ∉ symbols := by
  simp [isLetter]

theorem exists_spells (cs : List UInt8) : ∃ ts, Spells cs ts := by
  -- on the length: a word takes more than one character
  induction hn : cs.length using Nat.strongRecOn generalizing cs with
  | _ n ih =>
  subst hn
  cases cs with
  | nil => exact ⟨[], .nil⟩
  | cons c cs =>
    obtain ⟨ts, hts⟩ := ih cs.length (Nat.lt_succ_self _) cs rfl
    by_cases hblank : c ∈ whitespace
    · exact ⟨ts, .blank hblank hts⟩
    by_cases hsymbol : c ∈ symbols
    · rcases mem_symbols hsymbol with ⟨t, ht⟩ | rfl
      · exact ⟨t :: ts, .symbol ht hts⟩
      · cases cs with
        | nil => exact ⟨_, .greater (by simp) hts⟩
        | cons d ds =>
          by_cases hd : d = greater
          · subst hd
            obtain ⟨us, hus⟩ := ih ds.length (by simp only [List.length_cons]; omega) ds rfl
            exact ⟨_, .append hus⟩
          · exact ⟨_, .greater (by simpa using hd) hts⟩
    · -- the word goes as far as there are letters
      have hlen : ((c :: cs).dropWhile isLetter).length < (c :: cs).length := by
        rw [List.dropWhile_cons_of_pos (isLetter_iff.2 ⟨hblank, hsymbol⟩), List.length_cons]
        exact Nat.lt_succ_of_le (List.dropWhile_suffix _).length_le
      obtain ⟨us, hus⟩ := ih _ hlen _ rfl
      refine ⟨.word ((c :: cs).takeWhile isLetter) :: us, ?_⟩
      conv => arg 1; rw [← List.takeWhile_append_dropWhile (p := isLetter) (l := c :: cs)]
      refine .word ?_ (fun d hd => isLetter_iff.1 (List.mem_takeWhile_imp hd)) (fun d hd => ?_) hus
      · rw [List.takeWhile_cons_of_pos (isLetter_iff.2 ⟨hblank, hsymbol⟩)]
        exact List.cons_ne_nil _ _
      · have hno := List.head?_dropWhile_not isLetter (c :: cs)
        rw [Option.mem_def.1 hd] at hno
        have hd' : isLetter d = false := by simpa using hno
        by_contra hneither
        push Not at hneither
        rw [isLetter_iff.2 hneither] at hd'
        cases hd'

theorem Spells.length_le (h : Spells cs ts) : ts.length ≤ cs.length := by
  induction h with
  | nil => exact le_rfl
  | blank _ _ ih => exact Nat.le_succ_of_le ih
  | symbol _ _ ih | greater _ _ ih => exact Nat.succ_le_succ ih
  | append _ ih => exact Nat.le_succ_of_le (Nat.succ_le_succ ih)
  | @word w cs ts hne _ _ _ ih =>
    have := List.length_pos_iff.2 hne
    rw [List.length_append, List.length_cons]
    omega

/-! ## The scanner -/

/-- The extent of the word `w` in the string. -/
def Extends (text : List UInt8) (x : Extent) (w : List UInt8) : Prop :=
  ∃ pre post, text = pre ++ (w ++ post) ∧ x = (pre.length, pre.length + w.length) ∧
    (∀ c ∈ w, c ∉ whitespace ∧ c ∉ symbols) ∧ ∀ c ∈ post.head?, c ∈ whitespace ∨ c ∈ symbols

/-- One of the characters `toks` is next. -/
def starts (toks : List UInt8) : List Tok → Bool
  | [] => false
  | t :: _ => t.first.any (· ∈ toks)

/-- What `gettoken` returns in front of `ts`. -/
def codeOf : List Tok → UInt8
  | [] => 0
  | t :: _ => t.code

theorem At.skip (h : At text p ts) :
    ∃ cs p', Returns (scanWhile (text ++ [0]) text.length isBlank) p ⟨⟩ p' ∧ Rest text p' cs ∧
      First cs ts := by
  obtain ⟨cs, hrest, hspells⟩ := h
  exact ⟨_, _, returns_scanWhile isBlank hrest, hrest.dropWhile isBlank, hspells.first⟩

theorem First.peeks (hz : 0 ∉ cs) (h : First cs ts) (htoks : toks ⊆ symbols) :
    (decide (cs.headD 0 ≠ 0) && decide (cs.headD 0 ∈ toks)) = starts toks ts := by
  cases h with
  | nil => rfl
  | @symbol c t cs ts hc h =>
    obtain ⟨hsix, -, hfirst⟩ := symbolOf_eq hc
    have hne : c ≠ 0 := (of_symbol hsix).2.2
    simp [starts, hfirst, hne]
  | greater hcs h | append h => simp [starts, Tok.first, show Shell.greater ≠ 0 by decide]
  | @word c w cs ts hw hcs h =>
    have hno : c ∉ toks := fun hc => (hw c List.mem_cons_self).2 (htoks hc)
    simp [starts, Tok.first, hno]

/-- **`peek` sees the first token**, and stops in front of it. -/
theorem returns_peek (hz : 0 ∉ text) (h : At text p ts) (htoks : toks ⊆ symbols) :
    ∃ cs p', Returns (peek (text ++ [0]) text.length toks) p (starts toks ts) p' ∧ Rest text p' cs ∧
      First cs ts := by
  obtain ⟨cs, p', hskip, hrest, hfirst⟩ := h.skip
  refine ⟨cs, p', ?_, hrest, hfirst⟩
  refine returns_bind.2 ⟨⟨⟩, p', hskip, returns_bind.2 ⟨_, p', returns_read hrest,
    returns_pure.2 ⟨?_, rfl⟩⟩⟩
  exact (hfirst.peeks (fun h => hz (hrest.subset h)) htoks).symm

/-- **The `switch` of `gettoken`** takes the first token. -/
theorem returns_gettokenSwitch (hz : 0 ∉ text) (hrest : Rest text p cs) (h : First cs ts) :
    ∃ p', Returns (gettokenSwitch (text ++ [0]) text.length) p (codeOf ts) p' ∧ At text p' ts.tail ∧
      ∀ w, ts.head? = some (.word w) → Extends text (p, p') w := by
  have hread := returns_read hrest
  cases h with
  | nil =>
    refine ⟨p, returns_bind.2 ⟨0, p, hread, ?_⟩, ⟨[], hrest, .nil⟩, nofun⟩
    rw [if_pos rfl]
    exact returns_pure.2 ⟨rfl, rfl⟩
  | @symbol c t cs ts hc h =>
    obtain ⟨hsix, hcode, hfirst⟩ := symbolOf_eq hc
    refine ⟨p + 1, returns_bind.2 ⟨c, p, hread, ?_⟩, ⟨cs, hrest.next, h⟩, ?_⟩
    · rw [if_neg (of_symbol hsix).2.2, if_pos hsix]
      exact returns_bind.2 ⟨⟨⟩, p + 1, returns_modify.2 rfl, returns_pure.2 ⟨hcode, rfl⟩⟩
    · rintro w hw
      cases Option.some.inj hw
      cases hfirst
  | @greater cs ts hcs h =>
    refine ⟨p + 1, returns_bind.2 ⟨greater, p, hread, ?_⟩, ⟨cs, hrest.next, h⟩, nofun⟩
    have hne : cs.headD 0 ≠ greater := by
      cases cs with
      | nil => decide
      | cons d ds => simpa using hcs
    rw [if_neg (by decide), if_neg (by decide), if_pos rfl]
    refine returns_bind.2 ⟨⟨⟩, p + 1, returns_modify.2 rfl, ?_⟩
    refine returns_bind.2 ⟨_, p + 1, returns_read hrest.next, ?_⟩
    rw [if_neg hne]
    exact returns_pure.2 ⟨rfl, rfl⟩
  | @append cs ts h =>
    refine ⟨p + 2, returns_bind.2 ⟨greater, p, hread, ?_⟩, ⟨cs, hrest.next.next, h⟩, nofun⟩
    rw [if_neg (by decide), if_neg (by decide), if_pos rfl]
    refine returns_bind.2 ⟨⟨⟩, p + 1, returns_modify.2 rfl, ?_⟩
    refine returns_bind.2 ⟨greater, p + 1, returns_read hrest.next, ?_⟩
    rw [if_pos rfl]
    exact returns_bind.2 ⟨⟨⟩, p + 2, returns_modify.2 rfl, returns_pure.2 ⟨rfl, rfl⟩⟩
  | @word c w cs ts hw hcs h =>
    have hletters : ∀ d ∈ c :: w, isLetter d = true := fun d hd => isLetter_iff.2 (hw d hd)
    have hstop : cs.takeWhile isLetter = [] := by
      cases cs with
      | nil => rfl
      | cons d ds =>
        refine List.takeWhile_cons_of_neg fun hd => ?_
        have := isLetter_iff.1 hd
        exact (hcs d rfl).elim this.1 this.2
    have htake : (c :: w ++ cs).takeWhile isLetter = c :: w := by
      rw [List.takeWhile_append_of_pos hletters, hstop, List.append_nil]
    have hscan := returns_scanWhile isLetter hrest
    rw [htake] at hscan
    refine ⟨p + (c :: w).length, returns_bind.2 ⟨c, p, hread, ?_⟩, ⟨cs, hrest.advance, h⟩, ?_⟩
    · have hc := hw c List.mem_cons_self
      have hzero : c ≠ 0 := by
        rintro rfl
        exact hz (hrest.subset List.mem_cons_self)
      have hgreater : c ≠ greater := by
        rintro rfl
        exact hc.2 (by decide)
      rw [if_neg hzero, if_neg fun hsix => hc.2 (of_symbol hsix).2.1, if_neg hgreater]
      exact returns_bind.2 ⟨⟨⟩, _, hscan, returns_pure.2 ⟨rfl, rfl⟩⟩
    · rintro w' hw'
      cases Option.some.inj hw'
      obtain ⟨pre, htext, rfl⟩ := hrest
      exact ⟨pre, cs, htext, rfl, hw, hcs⟩

theorem returns_gettoken (hz : 0 ∉ text) (h : At text p ts) :
    ∃ x p', Returns (gettoken (text ++ [0]) text.length) p (codeOf ts, x) p' ∧ At text p' ts.tail ∧
      ∀ w, ts.head? = some (.word w) → Extends text x w := by
  obtain ⟨cs, q, hskip, hrest, hfirst⟩ := h.skip
  obtain ⟨eq, hswitch, hat, hword⟩ := returns_gettokenSwitch hz hrest hfirst
  obtain ⟨cs', p', hskip', hrest', hfirst'⟩ := hat.skip
  refine ⟨(q, eq), p', ?_, ⟨cs', hrest', hfirst'.spells⟩, hword⟩
  refine returns_bind.2 ⟨⟨⟩, q, hskip, returns_bind.2 ⟨q, q, returns_get.2 ⟨rfl, rfl⟩, ?_⟩⟩
  refine returns_bind.2 ⟨_, eq, hswitch, returns_bind.2 ⟨eq, eq, returns_get.2 ⟨rfl, rfl⟩, ?_⟩⟩
  exact returns_bind.2 ⟨⟨⟩, p', hskip', returns_pure.2 ⟨rfl, rfl⟩⟩

/-! ## Readings -/

/-- A command of the code whose words are those of the tree. -/
inductive Says (text : List UInt8) : Cmd Extent → Tree → Prop
  | exec {argv ws} (h : List.Forall₂ (Extends text) argv ws) : Says text (.exec argv) (.exec ws)
  | redir {cmd c x w mode fd} (h : Says text cmd c) (hx : Extends text x w) :
      Says text (.redir cmd x mode fd) (.redir c w mode fd)
  | pipe {cmd cmd' c c'} (h : Says text cmd c) (h' : Says text cmd' c') :
      Says text (.pipe cmd cmd') (.pipe c c')
  | list {cmd cmd' c c'} (h : Says text cmd c) (h' : Says text cmd' c') :
      Says text (.list cmd cmd') (.list c c')
  | back {cmd c} (h : Says text cmd c) : Says text (.back cmd) (.back c)

theorem Says.addArg {cmd : Cmd Extent} {c : Tree} {x : Extent} {w : List UInt8}
    (h : Says text cmd c)
    (hx : Extends text x w) : Says text (cmd.addArg x) (c.addArg w) := by
  induction h with
  | exec h => exact .exec (List.rel_append h (.cons hx .nil))
  | redir _ hy ih => exact .redir ih hy
  | pipe h h' => exact .pipe h h'
  | list h h' => exact .list h h'
  | back h => exact .back h

/-- The command and the cursor of the code stand for a tree and the tokens that are left. -/
def Shows (text : List UInt8) (cmd : Cmd Extent) (p : Nat) (c : Tree) (ts : List Tok) : Prop :=
  Says text cmd c ∧ At text p ts

/-- The messages of the parser. -/
def messages : List String := ["missing file for redirection", "syntax - missing )", "syntax",
    "too many args"]

/-- The parser panics about the input. -/
def Stop.Syntax (e : Stop) : Prop := ∃ msg ∈ messages, e = .panic msg

/-- Code of the parser for a symbol. -/
abbrev Parsing (text : List UInt8) (m : Parser (Cmd Extent)) (p : Nat) (P : Tree → List Tok → Prop)
    (F : List Tok → Prop) : Prop :=
  Parses (Shows text) Stop.Syntax m p P F

/-- `redirs` around `c` at the beginning of `ts`. -/
def RedirsFrom (c : Tree) (ts : List Tok) (d : Tree) (rest : List Tok) : Prop :=
  ∃ rs, ts = rs ++ rest ∧ Redirs c rs d

/-- `{word redirs}` at the beginning of `ts`, after `argc` words. -/
def ArgsFrom (argc : Nat) (c : Tree) (ts : List Tok) (d : Tree) (rest : List Tok) : Prop :=
  ∃ n as, ts = as ++ rest ∧ Args n c as d ∧ argc + n ≤ maxArgs - 1

/-- `{'&'}` behind `c`, at the beginning of `ts`. -/
def BacksFrom (c : Tree) (ts : List Tok) (d : Tree) (rest : List Tok) : Prop :=
  ∃ n, ts = List.replicate n .amp ++ rest ∧ d = Cmd.back^[n] c

/-- A symbol at the beginning of `ts`. -/
def Reads (X : NonTerminal) (ts : List Tok) (d : Tree) (rest : List Tok) : Prop :=
  ∃ us, ts = us ++ rest ∧ Derives X us d

/-- **What may follow a symbol.** -/
def Follow : NonTerminal → List Tok → Prop
  | .exec, ts => ts = [] ∨ starts [bar, rparen, amp, semi] ts = true
  | .pipe, ts => ts = [] ∨ starts [rparen, amp, semi] ts = true
  | .line, ts => ts = [] ∨ starts [rparen] ts = true

/-- No redirection is next. -/
def NoRedir (ts : List Tok) : Prop := starts [less, greater] ts = false

/-- No `'&'` is next. -/
def NoAmp (ts : List Tok) : Prop := starts [amp] ts = false

theorem symbolOf_first {c : UInt8} (h : t.first = some c) : symbolOf c = some t ∨ c = greater := by
  cases t with
  | less | bar | amp | semi | lparen | rparen =>
    cases h
    exact .inl rfl
  | greater | append =>
    cases h
    exact .inr rfl
  | word w => cases h

theorem eq_of_starts {c : UInt8} (h : starts [c] ts = true) (hc : symbolOf c = some t) :
    ∃ us, ts = t :: us := by
  cases ts with
  | nil => cases h
  | cons t' us =>
    obtain ⟨d, hfirst, hd⟩ := (Option.any_eq_true ..).1 h
    have hd : d = c := List.mem_singleton.1 (of_decide_eq_true hd)
    subst hd
    rcases symbolOf_first hfirst with heq | rfl
    · rw [hc] at heq
      cases heq
      exact ⟨us, rfl⟩
    · cases hc

theorem starts_redirection (t : Tok) (ts : List Tok) :
    starts [less, greater] (t :: ts) = t.redirection.isSome := by
  cases t <;> rfl

theorem switch_of_redirection {β : Type*} {mode fd : Nat} (h : t.redirection = some (mode, fd))
    (f : Nat → Nat → β) (b : β) :
    (if t.code = less then f readOnly 0 else if t.code = greater then f writeCreate 1
      else if t.code = plus then f writeCreate 1 else b) = f mode fd := by
  cases t with
  | less | greater | append =>
    cases h
    rfl
  | bar | amp | semi | lparen | rparen | word => cases h

theorem redirsFrom_iff {c : Tree} :
    RedirsFrom c ts d rest ↔ (d = c ∧ rest = ts) ∨
      ∃ t mode fd w us, ts = t :: .word w :: us ∧ t.redirection = some (mode, fd) ∧
        RedirsFrom (.redir c w mode fd) us d rest := by
  constructor
  · rintro ⟨rs, rfl, h⟩
    cases h with
    | nil => exact .inl ⟨rfl, rfl⟩
    | cons ht h => exact .inr ⟨_, _, _, _, _, rfl, ht, _, rfl, h⟩
  · rintro (⟨rfl, rfl⟩ | ⟨t, mode, fd, w, us, rfl, ht, rs, rfl, h⟩)
    · exact ⟨[], rfl, .nil⟩
    · exact ⟨_, rfl, .cons ht h⟩

theorem eq_word_of_code (h : codeOf ts = letterA) : ∃ w us, ts = .word w :: us := by
  cases ts with
  | nil => exact absurd h (by decide)
  | cons t us =>
    cases t with
    | word w => exact ⟨w, us, rfl⟩
    | less | greater | append | bar | amp | semi | lparen | rparen =>
      exact absurd h (of_decide_eq_false rfl)

theorem code_ne_zero (t : Tok) : t.code ≠ 0 := by
  cases t with
  | less | greater | append | bar | amp | semi | lparen | rparen | word =>
    exact of_decide_eq_false rfl

theorem argsFrom_iff {argc : Nat} {c e : Tree} :
    ArgsFrom argc c ts e rest ↔ (e = c ∧ rest = ts ∧ argc ≤ maxArgs - 1) ∨
      ∃ w us, ts = .word w :: us ∧ Seq (RedirsFrom (c.addArg w) us) (ArgsFrom (argc + 1))
        e rest := by
  constructor
  · rintro ⟨n, as, rfl, h, hle⟩
    cases h with
    | nil => exact .inl ⟨rfl, rfl, hle⟩
    | cons hredirs hargs =>
      exact .inr ⟨_, _, rfl, _, _, ⟨_, List.append_assoc .., hredirs⟩, _, _, rfl, hargs, by omega⟩
  · rintro (⟨rfl, rfl, hle⟩ | ⟨w, us, rfl, d, vs, ⟨rs, rfl, hredirs⟩, n, as, rfl, hargs, hle⟩)
    · exact ⟨0, [], rfl, .nil, hle⟩
    · exact ⟨n + 1, _, by rw [List.cons_append, List.append_assoc], .cons hredirs hargs, by omega⟩

theorem noRedir_of_follow (h : Follow .exec ts) : NoRedir ts := by
  rcases h with rfl | h
  · rfl
  · cases ts with
    | nil => cases h
    | cons t us =>
      cases t with
      | bar | amp | semi | rparen => rfl
      | less | greater | append | lparen => cases h
      | word w => cases h

theorem noRedir_of_argsFrom {argc : Nat} {c e : Tree} (h : ArgsFrom argc c ts e rest)
    (hrest : Follow .exec rest) : NoRedir ts := by
  rcases argsFrom_iff.1 h with ⟨-, rfl, -⟩ | ⟨w, us, rfl, -⟩
  · exact noRedir_of_follow hrest
  · rfl

theorem not_follow_word {w : List UInt8} : ¬ Follow .exec (.word w :: ts) := by
  rintro (h | h)
  · cases h
  · cases h

theorem backsFrom_iff {c : Tree} :
    BacksFrom c ts d rest ↔ (d = c ∧ rest = ts) ∨ ∃ us, ts = .amp :: us ∧
      BacksFrom (.back c) us d rest := by
  constructor
  · rintro ⟨n, rfl, rfl⟩
    cases n with
    | zero => exact .inl ⟨rfl, rfl⟩
    | succ n => exact .inr ⟨_, rfl, n, rfl, Function.iterate_succ_apply ..⟩
  · rintro (⟨rfl, rfl⟩ | ⟨us, rfl, n, rfl, rfl⟩)
    · exact ⟨0, rfl, rfl⟩
    · exact ⟨n + 1, rfl, (Function.iterate_succ_apply ..).symm⟩

/-- An optional tail `[t X]` behind `c`, joined to it. -/
def TailFrom (t : Tok) (join : Tree → Tree → Tree) (X : NonTerminal) (c : Tree)
    (ts : List Tok) (d : Tree)
    (rest : List Tok) : Prop :=
  (d = c ∧ rest = ts) ∨ ∃ us, ts = t :: us ∧ ∃ e, d = join c e ∧ Reads X us e rest

/-- The end of a line: `[';' line]`. -/
abbrev LineEnd := TailFrom .semi .list .line

/-- The end of a pipe: `['|' pipe]`. -/
abbrev PipeEnd := TailFrom .bar .pipe .pipe

/-- The end of a block: `')' redirs`. -/
def BlockEnd (c : Tree) (ts : List Tok) (d : Tree) (rest : List Tok) : Prop :=
  ∃ us, ts = .rparen :: us ∧ RedirsFrom c us d rest

theorem reads_line_iff :
    Reads .line ts d rest ↔ Seq (Reads .pipe ts) (fun c us => Seq (BacksFrom c us) LineEnd)
      d rest := by
  constructor
  · rintro ⟨us, rfl, h⟩
    cases h with
    | line n h => exact ⟨_, _, ⟨_, List.append_assoc .., h⟩, _, _, ⟨n, rfl, rfl⟩, .inl ⟨rfl, rfl⟩⟩
    | list n h h' =>
      refine ⟨_, _, ⟨_, List.append_assoc .., h⟩, _, _, ⟨n, List.append_assoc .., rfl⟩,
        .inr ⟨_, rfl, _, rfl, ?_⟩⟩
      exact ⟨_, rfl, h'⟩
  · rintro ⟨c, us, ⟨vs, rfl, h⟩, _, ws, ⟨n, rfl, rfl⟩, ⟨rfl, rfl⟩ | ⟨us, rfl, e, rfl, xs, rfl, h'⟩⟩
    · exact ⟨_, (List.append_assoc ..).symm, .line n h⟩
    · exact ⟨_, by simp only [List.append_assoc, List.cons_append], .list n h h'⟩

theorem reads_pipe_iff : Reads .pipe ts d rest ↔ Seq (Reads .exec ts) PipeEnd d rest := by
  constructor
  · rintro ⟨us, rfl, h⟩
    cases h with
    | single h => exact ⟨_, _, ⟨_, rfl, h⟩, .inl ⟨rfl, rfl⟩⟩
    | pipe h h' => exact ⟨_, _, ⟨_, List.append_assoc .., h⟩, .inr ⟨_, rfl, _, rfl, _, rfl, h'⟩⟩
  · rintro ⟨c, us, ⟨vs, rfl, h⟩, ⟨rfl, rfl⟩ | ⟨us, rfl, e, rfl, xs, rfl, h'⟩⟩
    · exact ⟨_, rfl, .single h⟩
    · exact ⟨_, by simp only [List.append_assoc, List.cons_append], .pipe h h'⟩

/-- **Commands**: a block, or words and redirections. -/
theorem reads_exec_iff :
    Reads .exec ts d rest ↔ (∃ us, ts = .lparen :: us ∧ Seq (Reads .line us) BlockEnd d rest) ∨
      Seq (RedirsFrom (.exec []) ts) (ArgsFrom 0) d rest := by
  constructor
  · rintro ⟨us, rfl, h⟩
    cases h with
    | args hredirs hargs hn =>
      exact .inr ⟨_, _, ⟨_, List.append_assoc .., hredirs⟩, _, _, rfl, hargs, by omega⟩
    | block h hredirs =>
      exact .inl ⟨_, rfl, _, _, ⟨_, List.append_assoc .., h⟩, _, rfl, _, rfl, hredirs⟩
  · rintro (⟨_, rfl, c, _, ⟨us, rfl, h⟩, _, rfl, rs, rfl, hredirs⟩ |
      ⟨c, _, ⟨rs, rfl, hredirs⟩, n, as, rfl, hargs, hn⟩)
    · exact ⟨_, by simp only [List.append_assoc, List.cons_append], .block h hredirs⟩
    · exact ⟨_, (List.append_assoc ..).symm, .args hredirs hargs (by omega)⟩

theorem Reads.length_le {X : NonTerminal} (h : Reads X ts d rest) : rest.length ≤ ts.length := by
  obtain ⟨us, rfl, -⟩ := h
  rw [List.length_append]
  exact Nat.le_add_left ..

theorem starts_mono {toks' : List UInt8} (hsub : toks ⊆ toks') (h : starts toks ts = true) :
    starts toks' ts = true := by
  cases ts with
  | nil => cases h
  | cons t us =>
    obtain ⟨c, hfirst, hc⟩ := (Option.any_eq_true ..).1 h
    exact (Option.any_eq_true ..).2 ⟨c, hfirst, decide_eq_true (hsub (of_decide_eq_true hc))⟩

theorem follow_pipe_of_line (h : Follow .line ts) : Follow .pipe ts :=
  h.imp_right (starts_mono (by decide))

theorem follow_exec_of_pipe (h : Follow .pipe ts) : Follow .exec ts :=
  h.imp_right (starts_mono (by decide))

theorem follow_pipe_of_backs {c : Tree} (h : Seq (BacksFrom c ts) LineEnd d rest)
    (hrest : Follow .line rest) : Follow .pipe ts := by
  obtain ⟨e, us, hbacks, hend⟩ := h
  rcases backsFrom_iff.1 hbacks with ⟨-, rfl⟩ | ⟨us', rfl, -⟩
  · rcases hend with ⟨-, rfl⟩ | ⟨vs, rfl, -⟩
    · exact follow_pipe_of_line hrest
    · exact .inr rfl
  · exact .inr rfl

theorem noAmp_of_lineEnd {c : Tree} (h : LineEnd c ts d rest) (hrest : Follow .line rest) :
    NoAmp ts := by
  rcases h with ⟨-, rfl⟩ | ⟨vs, rfl, -⟩
  · rcases hrest with rfl | hrest
    · rfl
    · obtain ⟨us, rfl⟩ := eq_of_starts (t := .rparen) hrest rfl
      rfl
  · rfl

theorem follow_exec_of_pipeEnd {c : Tree} (h : PipeEnd c ts d rest) (hrest : Follow .pipe rest) :
    Follow .exec ts := by
  rcases h with ⟨-, rfl⟩ | ⟨us, rfl, -⟩
  · exact follow_exec_of_pipe hrest
  · exact .inr rfl

theorem follow_line_of_blockEnd {c : Tree} (h : BlockEnd c ts d rest) (_ : Follow .exec rest) :
    Follow .line ts := by
  obtain ⟨us, rfl, -⟩ := h
  exact .inr rfl

section

variable (hz : 0 ∉ text)

include hz

theorem parses_peek {P : Tree → List Tok → Prop} {F : List Tok → Prop} {toks : List UInt8}
    {yes no : Parser (Cmd Extent)} (hat : At text p ts) (htoks : toks ⊆ symbols)
    (hyes : starts toks ts = true → ∀ p', At text p' ts → Parsing text yes p' P F)
    (hno : starts toks ts = false → ∀ p', At text p' ts → Parsing text no p' P F) :
    Parsing text
      (peek (text ++ [0]) text.length toks >>= fun b => if b = true then yes else no) p P F := by
  obtain ⟨cs, p', hpeek, hrest, hfirst⟩ := returns_peek hz hat htoks
  have hat' : At text p' ts := ⟨cs, hrest, hfirst.spells⟩
  refine Parses.of_returns hpeek ?_
  by_cases hstarts : starts toks ts = true
  · rw [if_pos hstarts]
    exact hyes hstarts p' hat'
  · rw [if_neg hstarts]
    exact hno (Bool.eq_false_iff.2 hstarts) p' hat'

theorem parses_gettoken {P : Tree → List Tok → Prop} {F : List Tok → Prop}
    {k : UInt8 × Extent → Parser (Cmd Extent)} (hat : At text p ts)
    (hk : ∀ x p', At text p' ts.tail → (∀ w, ts.head? = some (.word w) → Extends text x w) →
      Parsing text (k (codeOf ts, x)) p' P F) :
    Parsing text (gettoken (text ++ [0]) text.length >>= k) p P F := by
  obtain ⟨x, p', hget, hat', hword⟩ := returns_gettoken hz hat
  exact Parses.of_returns hget (hk x p' hat' hword)

variable {fuel : Nat} {cmd : Cmd Extent} {c : Tree}

theorem parses_redirs (hcmd : Says text cmd c) (hat : At text p ts) (hfuel : ts.length < fuel) :
    Parsing text (parseredirs (text ++ [0]) text.length fuel cmd) p (RedirsFrom c ts)
      NoRedir := by
  induction fuel generalizing cmd c p ts with
  | zero => omega
  | succ fuel ih =>
    refine parses_peek hz hat (by decide) (fun hstarts p1 hat1 => ?_) fun hstarts p1 hat1 => ?_
    · cases ts with
      | nil => cases hstarts
      | cons t us =>
      obtain ⟨⟨mode, fd⟩, hredir⟩ := Option.isSome_iff_exists.1 (starts_redirection t us ▸ hstarts)
      refine parses_gettoken hz hat1 fun x p2 hat2 _ =>
        parses_gettoken hz hat2 fun y p3 hat3 hword => ?_
      refine Parses.stopIf (fun hno => ?_) fun hyes => ?_
      · -- there is no word for a file
        refine ⟨⟨_, List.mem_cons_self, rfl⟩, fun d rest hreads hrest => ?_⟩
        rcases redirsFrom_iff.1 hreads with ⟨-, rfl⟩ | ⟨t', mode', fd', w, vs, heq, -, -⟩
        · rw [NoRedir, hstarts] at hrest
          cases hrest
        · cases heq
          exact hno rfl
      · obtain ⟨w, vs, rfl⟩ := eq_word_of_code (not_not.1 hyes)
        have hshort : vs.length < fuel := by
          simp only [List.length_cons] at hfuel
          omega
        have hnext := ih (hcmd.redir (hword w rfl) : Says text (.redir cmd y mode fd) _) hat3 hshort
        have hcont : Parsing text
            (parseredirs (text ++ [0]) text.length fuel (.redir cmd y mode fd)) p3
            (RedirsFrom c (t :: .word w :: vs)) NoRedir := by
          refine hnext.of_imp (fun d rest h => ?_) fun d rest h hrest => ?_
          · exact redirsFrom_iff.2 (.inr ⟨t, mode, fd, w, vs, rfl, hredir, h⟩)
          · rcases redirsFrom_iff.1 h with ⟨-, rfl⟩ | ⟨t', mode', fd', w', vs', heq, hredir', h⟩
            · rw [NoRedir, hstarts] at hrest
              cases hrest
            · cases heq
              rw [hredir] at hredir'
              cases hredir'
              exact h
        have hswitch := switch_of_redirection hredir
          (fun mode fd => parseredirs (text ++ [0]) text.length fuel (.redir cmd y mode fd))
          (parseredirs (text ++ [0]) text.length fuel cmd)
        exact hswitch.symm ▸ hcont
    · refine parses_pure ⟨hcmd, hat1⟩ ⟨redirsFrom_iff.2 (.inl ⟨rfl, rfl⟩), fun d rest h _ => ?_⟩
      rcases redirsFrom_iff.1 h with heq | ⟨t, mode, fd, w, us, rfl, hredir, -⟩
      · exact heq
      · rw [starts_redirection, hredir] at hstarts
        cases hstarts

theorem parses_args {argc : Nat} (hcmd : Says text cmd c) (hat : At text p ts)
    (hfuel : ts.length < fuel) (hargc : argc ≤ maxArgs - 1) :
    Parsing text (parseargs (text ++ [0]) text.length fuel cmd argc) p (ArgsFrom argc c ts)
      (Follow .exec) := by
  induction fuel generalizing argc cmd c p ts with
  | zero => omega
  | succ fuel ih =>
    have hroom : ¬ maxArgs ≤ argc := by
      unfold maxArgs at *
      omega
    refine parses_peek hz hat (by decide) (fun hstarts p1 hat1 => ?_) fun hstarts p1 hat1 => ?_
    · refine Parses.stopIf (fun h => absurd h hroom) fun _ => parses_pure ⟨hcmd, hat1⟩ ?_
      refine ⟨argsFrom_iff.2 (.inl ⟨rfl, rfl, hargc⟩), fun d rest h _ => ?_⟩
      rcases argsFrom_iff.1 h with ⟨hd, hrest, -⟩ | ⟨w, us, rfl, -⟩
      · exact ⟨hd, hrest⟩
      · cases hstarts
    refine parses_gettoken hz hat1 fun x p2 hat2 hword => ?_
    cases ts with
    | nil =>
      -- the end of the string
      dsimp only [codeOf]
      rw [if_pos rfl]
      refine Parses.stopIf (fun h => absurd h hroom) fun _ => parses_pure ⟨hcmd, hat2⟩ ?_
      refine ⟨argsFrom_iff.2 (.inl ⟨rfl, rfl, hargc⟩), fun d rest h _ => ?_⟩
      rcases argsFrom_iff.1 h with ⟨hd, hrest, -⟩ | ⟨w, us, heq, -⟩
      · exact ⟨hd, hrest⟩
      · cases heq
    | cons t us =>
      dsimp only [codeOf]
      rw [if_neg (code_ne_zero t)]
      refine Parses.stopIf (fun hno => ⟨⟨_, by decide, rfl⟩, fun d rest h hfollow => ?_⟩)
        fun hyes => ?_
      · -- neither a word nor something that may follow
        rcases argsFrom_iff.1 h with ⟨-, rfl, -⟩ | ⟨w, vs, heq, -⟩
        · exact hfollow.elim (List.cons_ne_nil _ _) (Bool.eq_false_iff.1 hstarts)
        · cases heq
          exact hno rfl
      refine Parses.stopIf (fun h => absurd h hroom) fun _ => ?_
      have hcode : codeOf (t :: us) = letterA := not_not.1 hyes
      obtain ⟨w, vs, heq⟩ := eq_word_of_code hcode
      cases heq
      refine Parses.stopIf (fun hmany => ⟨⟨_, by decide, rfl⟩, fun d rest h hfollow => ?_⟩)
        fun hfew => ?_
      · -- a word too many
        rcases argsFrom_iff.1 h with ⟨-, rfl, -⟩ | ⟨w', us', -, _, _, -, n, as, -, -, hle⟩
        · exact not_follow_word hfollow
        · unfold maxArgs at *
          omega
      have hshort : us.length < fuel := by
        rw [List.length_cons] at hfuel
        omega
      have hredirs := parses_redirs hz (hcmd.addArg (hword w rfl)) hat2 hshort
      refine Parses.of_imp (P := Seq _ (ArgsFrom (argc + 1)))
        (hredirs.seq (fun _ _ _ _ => noRedir_of_argsFrom) ?_) ?_ ?_
      · rintro cmd' p' d vs ⟨hcmd', hat'⟩ ⟨rs, heq, -⟩
        refine ih hcmd' hat' ?_ (by unfold maxArgs at *; omega)
        have heq : us = rs ++ vs := heq
        rw [heq, List.length_append] at hshort
        omega
      · exact fun d rest h => argsFrom_iff.2 (.inr ⟨w, us, rfl, h⟩)
      · intro d rest h hfollow
        rcases argsFrom_iff.1 h with ⟨-, rfl, -⟩ | ⟨w', us', heq, h⟩
        · exact absurd hfollow not_follow_word
        · cases heq
          exact h

theorem parses_backs (hcmd : Says text cmd c) (hat : At text p ts) (hfuel : ts.length < fuel) :
    Parsing text (parsebacks (text ++ [0]) text.length fuel cmd) p (BacksFrom c ts)
      NoAmp := by
  induction fuel generalizing cmd c p ts with
  | zero => omega
  | succ fuel ih =>
    refine parses_peek hz hat (by decide) (fun hstarts p1 hat1 => ?_) fun hstarts p1 hat1 => ?_
    · obtain ⟨us, rfl⟩ := eq_of_starts (t := .amp) hstarts rfl
      refine parses_gettoken hz hat1 fun x p2 hat2 _ => ?_
      have hshort : us.length < fuel := by
        rw [List.length_cons] at hfuel
        omega
      refine (ih hcmd.back hat2 hshort).of_imp (fun d rest h => ?_) fun d rest h hrest => ?_
      · exact backsFrom_iff.2 (.inr ⟨us, rfl, h⟩)
      · rcases backsFrom_iff.1 h with ⟨-, rfl⟩ | ⟨us', heq, h⟩
        · cases hrest
        · cases heq
          exact h
    · refine parses_pure ⟨hcmd, hat1⟩ ⟨backsFrom_iff.2 (.inl ⟨rfl, rfl⟩), fun d rest h _ => ?_⟩
      rcases backsFrom_iff.1 h with heq | ⟨us, rfl, -⟩
      · exact heq
      · cases hstarts

/-! ## The four functions -/

/-- The function for a symbol. -/
def parserOf (text : List UInt8) : NonTerminal → Nat → Parser (Cmd Extent)
  | .line => parseline (text ++ [0]) text.length
  | .pipe => parsepipe (text ++ [0]) text.length
  | .exec => parseexec (text ++ [0]) text.length

/-- How many calls a symbol takes without taking a token. -/
def NonTerminal.depth : NonTerminal → Nat
  | .line => 4
  | .pipe => 3
  | .exec => 2

/-- With enough rounds for the tokens that are left, the function parses its symbol. -/
def Correct (text : List UInt8) (X : NonTerminal) (fuel : Nat) : Prop :=
  ∀ p ts, At text p ts → 4 * ts.length + X.depth ≤ fuel →
    Parsing text (parserOf text X fuel) p (Reads X ts) (Follow X)

variable {fuel : Nat}

/-- **The end of `parseline` and `parsepipe`**: a symbol is taken, and the function is called
again. -/
theorem parses_tail {X : NonTerminal} {cmd : Cmd Extent} {c : Tree} {sep : UInt8}
    {m : Parser (Cmd Extent)}
    {join : Cmd Extent → Cmd Extent → Cmd Extent} {join' : Tree → Tree → Tree}
      (hcmd : Says text cmd c)
    (hat : At text p ts) (hsep : symbolOf sep = some t) (hsym : [sep] ⊆ symbols)
    (hnot : ∀ us, ¬ Follow X (t :: us))
    (hjoin : ∀ {cmd' c'}, Says text cmd' c' → Says text (join cmd cmd') (join' c c'))
    (hm : ∀ us p', ts = t :: us → At text p' us → Parsing text m p' (Reads X us) (Follow X)) :
    Parsing text (peek (text ++ [0]) text.length [sep] >>= fun b =>
      if b = true then do
        let _ ← gettoken (text ++ [0]) text.length
        let right ← m
        pure (join cmd right)
      else pure cmd) p (TailFrom t join' X c ts) (Follow X) := by
  refine parses_peek hz hat hsym (fun hstarts p1 hat1 => ?_) fun hstarts p1 hat1 => ?_
  · obtain ⟨us, rfl⟩ := eq_of_starts hstarts hsep
    refine parses_gettoken hz hat1 fun x p2 hat2 _ => ?_
    refine Parses.of_imp (Parses.map (g := join' c) (hm us p2 rfl hat2) ?_) ?_ ?_
    · exact fun cmd' p' e rest h => ⟨hjoin h.1, h.2⟩
    · exact fun e rest h => .inr ⟨us, rfl, h⟩
    · rintro e rest (⟨-, rfl⟩ | ⟨us', heq, h⟩) hrest
      · exact absurd hrest (hnot us)
      · cases heq
        exact h
  · refine parses_pure ⟨hcmd, hat1⟩ ⟨.inl ⟨rfl, rfl⟩, ?_⟩
    rintro e rest (heq | ⟨us, rfl, -⟩) _
    · exact heq
    · rw [starts, (symbolOf_eq hsep).2.2] at hstarts
      simp at hstarts

theorem correct_line (hpipe : Correct text .pipe fuel) (hline : Correct text .line fuel) :
    Correct text .line (fuel + 1) := by
  intro p ts hat hfuel
  have hdepth : 4 * ts.length + 4 ≤ fuel + 1 := hfuel
  refine Parses.of_imp (Parses.seq (hpipe p ts hat (by show _ + 3 ≤ _; omega))
    (fun _ _ _ _ => follow_pipe_of_backs) ?_) (fun _ _ => reads_line_iff.2) fun _ _ h _ =>
      reads_line_iff.1 h
  rintro cmd p1 c us ⟨hcmd, hat1⟩ hreads
  have hus := hreads.length_le
  refine Parses.seq (parses_backs hz hcmd hat1 (by omega)) (fun _ _ _ _ => noAmp_of_lineEnd) ?_
  rintro cmd2 p2 d vs ⟨hcmd2, hat2⟩ ⟨n, rfl, -⟩
  refine parses_tail hz hcmd2 hat2 rfl (by decide) (by rintro _ (h | h) <;> cases h) hcmd2.list
    fun ws p' hws hat' => ?_
  refine hline p' ws hat' ?_
  show _ + 4 ≤ _
  simp only [List.length_append, hws, List.length_cons] at hus
  omega

theorem correct_pipe (hexec : Correct text .exec fuel) (hpipe : Correct text .pipe fuel) :
    Correct text .pipe (fuel + 1) := by
  intro p ts hat hfuel
  have hdepth : 4 * ts.length + 3 ≤ fuel + 1 := hfuel
  refine Parses.of_imp (Parses.seq (hexec p ts hat (by show _ + 2 ≤ _; omega))
    (fun _ _ _ _ => follow_exec_of_pipeEnd) ?_) (fun _ _ => reads_pipe_iff.2) fun _ _ h _ =>
      reads_pipe_iff.1 h
  rintro cmd p1 c us ⟨hcmd, hat1⟩ hreads
  have hus := hreads.length_le
  refine parses_tail hz hcmd hat1 rfl (by decide) (by rintro _ (h | h) <;> cases h) hcmd.pipe
    fun vs p' hvs hat' => ?_
  refine hpipe p' vs hat' ?_
  show _ + 3 ≤ _
  rw [hvs, List.length_cons] at hus
  omega

theorem parses_block (hline : Correct text .line fuel) (hat : At text p (.lparen :: ts))
    (hfuel : 4 * ts.length + 4 ≤ fuel) :
    Parsing text (parseblock (text ++ [0]) text.length (fuel + 1)) p
      (Seq (Reads .line ts) BlockEnd) (Follow .exec) := by
  obtain ⟨cs, p1, hpeek, hrest, hfirst⟩ := returns_peek hz hat (show [lparen] ⊆ symbols by decide)
  refine Parses.of_returns hpeek (Parses.stopIf (fun hno => absurd hno.symm Bool.false_ne_true)
    fun _ => ?_)
  refine parses_gettoken hz ⟨cs, hrest, hfirst.spells⟩ fun x p2 hat2 _ => ?_
  refine Parses.seq (hline p2 ts hat2 hfuel) (fun _ _ _ _ => follow_line_of_blockEnd) ?_
  rintro cmd p3 c us ⟨hcmd, hat3⟩ hreads
  have hus := hreads.length_le
  obtain ⟨cs', p4, hpeek', hrest', hfirst'⟩ :=
    returns_peek hz hat3 (show [rparen] ⊆ symbols by decide)
  refine Parses.of_returns hpeek' (Parses.stopIf (fun hno => ⟨⟨_, by decide, rfl⟩, ?_⟩)
    fun hyes => ?_)
  · rintro d rest ⟨vs, rfl, -⟩ _
    cases hno
  · have hstarts : starts [rparen] us = true := by simpa using hyes
    obtain ⟨vs, rfl⟩ := eq_of_starts (t := .rparen) hstarts rfl
    refine parses_gettoken hz ⟨cs', hrest', hfirst'.spells⟩ fun y p5 hat5 _ => ?_
    have hvs : vs.length < fuel := by
      rw [List.length_cons] at hus
      omega
    refine ((parses_redirs hz hcmd hat5 hvs).mono_follow fun _ => noRedir_of_follow).of_imp ?_ ?_
    · exact fun d rest h => ⟨vs, rfl, h⟩
    · rintro d rest ⟨vs', heq, h⟩ _
      cases heq
      exact h

theorem correct_exec (hblock : ∀ fuel', fuel = fuel' + 1 → Correct text .line fuel') :
    Correct text .exec (fuel + 1) := by
  intro p ts hat hfuel
  have hdepth : 4 * ts.length + 2 ≤ fuel + 1 := hfuel
  refine parses_peek hz hat (by decide) (fun hstarts p1 hat1 => ?_) fun hstarts p1 hat1 => ?_
  · obtain ⟨us, rfl⟩ := eq_of_starts (t := .lparen) hstarts rfl
    rw [List.length_cons] at hdepth
    obtain ⟨fuel', rfl⟩ : ∃ fuel', fuel = fuel' + 1 := ⟨fuel - 1, by omega⟩
    refine (parses_block hz (hblock fuel' rfl) hat1 (by omega)).of_imp ?_ ?_
    · exact fun d rest h => reads_exec_iff.2 (.inl ⟨us, rfl, h⟩)
    · intro d rest h hrest
      rcases reads_exec_iff.1 h with ⟨us', heq, h⟩ | ⟨c, vs, hredirs, hargs⟩
      · cases heq
        exact h
      · -- neither a redirection nor a word starts with a parenthesis
        rcases redirsFrom_iff.1 hredirs with ⟨-, rfl⟩ | ⟨t, mode, fd, w, us', heq, hredir, -⟩
        · rcases argsFrom_iff.1 hargs with ⟨-, rfl, -⟩ | ⟨w, us', heq, -⟩
          · exact (hrest.elim (List.cons_ne_nil _ _) Bool.false_ne_true).elim
          · cases heq
        · cases heq
          cases hredir
  · refine Parses.of_imp (Parses.seq (parses_redirs hz (.exec .nil) hat1 (by omega))
      (fun _ _ _ _ => noRedir_of_argsFrom) ?_) (fun d rest h => reads_exec_iff.2 (.inr h))
        fun d rest h _ => ?_
    · rintro cmd p2 c us ⟨hcmd, hat2⟩ ⟨rs, rfl, -⟩
      refine parses_args hz hcmd hat2 ?_ (Nat.zero_le _)
      rw [List.length_append] at hdepth
      omega
    · rcases reads_exec_iff.1 h with ⟨us, rfl, -⟩ | h
      · cases hstarts
      · exact h

/-- **All functions of the parser parse their symbols.** -/
theorem parse_all (X : NonTerminal) (fuel : Nat) : Correct text X fuel := by
  -- on the rounds: every call has one less than its caller
  induction fuel using Nat.strongRecOn generalizing X with
  | _ fuel ih =>
  cases fuel with
  | zero =>
    intro p ts _ hfuel
    cases X <;> simp [NonTerminal.depth] at hfuel
  | succ fuel =>
    have hprev : ∀ X, Correct text X fuel := ih fuel (Nat.lt_succ_self fuel)
    cases X with
    | line => exact correct_line hz (hprev .pipe) (hprev .line)
    | pipe => exact correct_pipe hz (hprev .exec) (hprev .pipe)
    | exec => exact correct_exec hz fun fuel' hfuel' => ih fuel' (by omega) .line

end

/-! ## Words in the string -/

variable {x : Extent} {w : List UInt8} {cmd : Cmd Extent}

section

variable (hx : Extends text x w)

include hx

theorem Extends.getElem? {k : Nat} (hk : k < w.length) :
    text[x.1 + k]? = some w[k] := by
  obtain ⟨pre, post, rfl, rfl, -, -⟩ := hx
  rw [List.getElem?_append_right (Nat.le_add_right ..), Nat.add_sub_cancel_left,
    List.getElem?_append_left hk, List.getElem?_eq_getElem hk]

theorem Extends.end_getElem? {c : UInt8} (hc : text[x.2]? = some c) :
    c ∈ whitespace ∨ c ∈ symbols := by
  obtain ⟨pre, post, rfl, rfl, -, hpost⟩ := hx
  refine hpost c ?_
  rw [List.getElem?_append_right (Nat.le_add_right ..), Nat.add_sub_cancel_left,
    List.getElem?_append_right le_rfl, Nat.sub_self] at hc
  rw [List.head?_eq_getElem?]
  exact hc

theorem Extends.length : x.2 = x.1 + w.length ∧ x.2 ≤ text.length := by
  obtain ⟨pre, post, rfl, rfl, -, -⟩ := hx
  refine ⟨rfl, ?_⟩
  simp only [List.length_append]
  omega

theorem Extends.letters : ∀ c ∈ w, c ∉ whitespace ∧ c ∉ symbols := by
  obtain ⟨pre, post, -, -, hw, -⟩ := hx
  exact hw

end

theorem Extends.apart {y : Extent} {v : List UInt8} (hx : Extends text x v) (hy : Extends text y w)
    {k : Nat} (hk : k < v.length) : y.2 ≠ x.1 + k := by
  intro heq
  have hc := hx.getElem? hk
  rw [← heq] at hc
  have hletter := hx.letters v[k] (List.getElem_mem hk)
  exact (hy.end_getElem? hc).elim hletter.1 hletter.2

theorem nulterminate_eq (cmd : Cmd Extent) (buf : List UInt8) :
    nulterminate cmd buf = cmd.words.foldl (fun buf x => buf.set x.2 0) buf := by
  induction cmd generalizing buf with
  | exec argv => rfl
  | redir cmd file mode fd ih =>
    rw [nulterminate, ih, Cmd.words, List.foldl_append]
    rfl
  | pipe left right ihl ihr | list left right ihl ihr =>
    rw [nulterminate, ihl, ihr, Cmd.words, List.foldl_append]
  | back cmd ih => exact ih buf

theorem getElem?_foldl_set (l : List Extent) (buf : List UInt8) {i : Nat} (hi : i < buf.length) :
    (l.foldl (fun buf x => buf.set x.2 0) buf)[i]? = if ∃ x ∈ l,
      x.2 = i then some 0 else buf[i]? := by
  induction l generalizing buf with
  | nil => simp
  | cons x l ih =>
    rw [List.foldl_cons, ih _ (by rwa [List.length_set])]
    by_cases hl : ∃ y ∈ l, y.2 = i
    · obtain ⟨y, hy, hyi⟩ := hl
      rw [if_pos ⟨y, hy, hyi⟩, if_pos ⟨y, List.mem_cons_of_mem x hy, hyi⟩]
    rw [if_neg hl]
    by_cases hx : x.2 = i
    · rw [if_pos ⟨x, List.mem_cons_self, hx⟩, hx, List.getElem?_set_self hi]
    · rw [if_neg, List.getElem?_set_ne hx]
      rintro ⟨y, hy, hyi⟩
      rcases List.mem_cons.1 hy with rfl | hy
      · exact hx hyi
      · exact hl ⟨y, hy, hyi⟩

theorem stringAt_eq {buf : List UInt8} {q : Nat}
    (hw : ∀ k (hk : k < w.length), buf[q + k]? = some w[k]) (hend : buf[q + w.length]? = some 0)
    (hz : 0 ∉ w) : stringAt buf q = w := by
  induction w generalizing q with
  | nil =>
    obtain ⟨hlt, heq⟩ := List.getElem?_eq_some_iff.1 hend
    have hlt : q < buf.length := hlt
    have heq : buf[q] = 0 := heq
    rw [stringAt, List.drop_eq_getElem_cons hlt, heq]
    rfl
  | cons c w ih =>
    obtain ⟨hc, hw'⟩ := List.ne_and_not_mem_of_not_mem_cons hz
    obtain ⟨hlt, heq⟩ := List.getElem?_eq_some_iff.1 (hw 0 (Nat.succ_pos _))
    have hlt : q < buf.length := hlt
    have heq : buf[q] = c := heq
    have hrest : stringAt buf (q + 1) = w := by
      refine ih (fun k hk => ?_) ?_ hw'
      · rw [Nat.add_assoc, Nat.add_comm 1 k]
        exact hw (k + 1) (Nat.succ_lt_succ hk)
      · rw [Nat.add_assoc, Nat.add_comm 1]
        exact hend
    rw [stringAt, List.drop_eq_getElem_cons hlt, heq, List.takeWhile_cons_of_pos
      (by simpa using hc.symm)]
    rw [stringAt] at hrest
    rw [hrest]

theorem Says.exists_extends {c : Tree} (h : Says text cmd c) :
    ∀ x ∈ cmd.words, ∃ w, Extends text x w := by
  induction h with
  | @exec argv ws h =>
    intro x hx
    obtain ⟨i, hi, rfl⟩ := List.getElem_of_mem hx
    exact ⟨_, (List.forall₂_iff_get.1 h).2 i hi ((List.forall₂_iff_get.1 h).1 ▸ hi)⟩
  | redir _ hy ih =>
    intro x hx
    rcases List.mem_append.1 hx with hx | hx
    · exact ih x hx
    · exact ⟨_, List.mem_singleton.1 hx ▸ hy⟩
  | pipe _ _ ih ih' | list _ _ ih ih' =>
    exact fun x hx => (List.mem_append.1 hx).elim (ih x) (ih' x)
  | back _ ih => exact ih

theorem Says.map_eq {c : Tree} {f : Extent → List UInt8} (h : Says text cmd c)
    (hf : ∀ x ∈ cmd.words, ∀ w, Extends text x w → f x = w) : cmd.map f = c := by
  induction h with
  | @exec argv ws h =>
    refine congrArg Cmd.exec ?_
    induction h with
    | nil => rfl
    | cons hx _ ih =>
      rw [List.map_cons, hf _ List.mem_cons_self _ hx, ih fun x hx =>
        hf x (List.mem_cons_of_mem _ hx)]
  | redir _ hy ih =>
    rw [Cmd.map, ih fun x hx => hf x (List.mem_append_left _ hx),
      hf _ (List.mem_append_right _ (List.mem_singleton_self _)) _ hy]
  | pipe _ _ ih ih' | list _ _ ih ih' =>
    rw [Cmd.map, ih fun x hx => hf x (List.mem_append_left _ hx), ih' fun x hx =>
      hf x (List.mem_append_right _ hx)]
  | back _ ih => rw [Cmd.map, ih hf]

/-- **A string of a command** after `nulterminate` is its word. -/
theorem Says.string {c : Tree} (hz : 0 ∉ text) (h : Says text cmd c) (hx : x ∈ cmd.words)
    (hw : Extends text x w) : stringAt (nulterminate cmd (text ++ [0])) x.1 = w := by
  obtain ⟨hlen, hle⟩ := hw.length
  have hbuf : (text ++ [0]).length = text.length + 1 := List.length_append
  rw [nulterminate_eq]
  refine stringAt_eq (fun k hk => ?_) ?_ fun hzero => ?_
  · rw [getElem?_foldl_set _ _ (by omega), if_neg]
    · rw [List.getElem?_append_left (by omega)]
      exact hw.getElem? hk
    · rintro ⟨y, hy, hyk⟩
      obtain ⟨v, hv⟩ := h.exists_extends y hy
      exact hw.apart hv hk hyk
  · rw [getElem?_foldl_set _ _ (by omega), if_pos ⟨x, hx, hlen⟩]
  · obtain ⟨k, hk, hzero⟩ := List.getElem_of_mem hzero
    have hget := hw.getElem? hk
    rw [hzero] at hget
    exact hz (List.mem_of_getElem? hget)

/-! ## The whole parser -/

/-- **`parsecmd`** on a string that is spelled by `ts`. -/
theorem ends_parsecmd {fuel : Nat} (hz : 0 ∉ text) (hspells : Spells text ts)
    (hfuel : 4 * text.length + 4 ≤ fuel) :
    Ends (parsecmd fuel (text ++ [0])) 0
      (fun r _ => r.2 = nulterminate r.1 (text ++ [0]) ∧
        ∃ c, Says text r.1 c ∧ Derives .line ts c ∧ ∀ c', Derives .line ts c' → c' = c)
      fun e _ => e.Syntax ∧ ∀ c, ¬ Derives .line ts c := by
  have hlen := hspells.length_le
  have hline := parse_all hz .line fuel 0 ts ⟨text, ⟨[], rfl, rfl⟩, hspells⟩
    (by show _ + 4 ≤ _; omega)
  have reads_of : ∀ {c}, Derives .line ts c → Reads .line ts c [] :=
    fun h => ⟨ts, (List.append_nil ts).symm, h⟩
  unfold parsecmd
  dsimp only
  rw [strlen_append hz, ends_bind]
  refine hline.mono ?_ ?_
  · rintro cmd p ⟨c, rest, ⟨hcmd, hat⟩, hreads, hunique⟩
    obtain ⟨cs, p', hpeek, hrest, hfirst⟩ := returns_peek hz hat (List.nil_subset symbols)
    rw [ends_bind_of_returns hpeek, ends_bind, ends_get, ends_bind, ends_stopIf]
    constructor
    · -- something is left
      intro hleft
      refine ⟨⟨_, by decide, rfl⟩, fun c' hc' => hleft ?_⟩
      obtain ⟨-, rfl⟩ := hunique c' [] (reads_of hc') (.inl rfl)
      exact hrest.eq_length_iff.2 (hfirst.eq_nil_iff.2 rfl)
    · intro hall
      obtain rfl := hfirst.eq_nil_iff.1 (hrest.eq_length_iff.1 (not_not.1 hall))
      obtain ⟨us, heq, hderives⟩ := hreads
      rw [List.append_nil] at heq
      subst heq
      exact ⟨rfl, c, hcmd, hderives, fun c' hc' => (hunique c' [] (reads_of hc') (.inl rfl)).1⟩
  · rintro e p ⟨he, hrefuses⟩
    exact ⟨he, fun c hc => hrefuses c [] (reads_of hc) (.inl rfl)⟩

/-- **The parser of the shell accepts exactly its grammar.** On every string that ends with a NUL,
`parsecmd` returns or panics; it reads no character behind the NUL and writes no entry behind
`argv`. If it returns, then the string says the command it returns, and no other. If it panics, then
with a message about the input, and the string says no command. -/
theorem parsecmd_exact {fuel : Nat} (hz : 0 ∉ text) (hfuel : 4 * text.length + 4 ≤ fuel) :
    (∃ cmd buf, (exec (parsecmd fuel (text ++ [0])) 0).1 = .ok (cmd, buf) ∧
      ∀ tree, Sentence text tree ↔ tree = cmd.map fun x => stringAt buf x.1) ∨
    ∃ msg ∈ messages, (exec (parsecmd fuel (text ++ [0])) 0).1 = .error (.panic msg) ∧
      ∀ tree, ¬ Sentence text tree := by
  have hends : ∀ ts, Spells text ts → _ := fun ts hspells => ends_parsecmd hz hspells hfuel
  obtain ⟨ts, hspells⟩ := exists_spells text
  have hts := hends ts hspells
  unfold Ends at hends hts
  rcases hrun : exec (parsecmd fuel (text ++ [0])) 0 with ⟨e | ⟨cmd, buf⟩, p⟩
  · rw [hrun] at hts hends
    obtain ⟨⟨msg, hmsg, rfl⟩, -⟩ := hts
    refine .inr ⟨msg, hmsg, rfl, ?_⟩
    rintro tree ⟨us, hus, hderives⟩
    exact (hends us hus).2 tree hderives
  · rw [hrun] at hts hends
    obtain ⟨hbuf, c, hc, hderives, -⟩ := hts
    obtain rfl : buf = nulterminate cmd _ := hbuf
    have hstrings := fun {c} (h : Says text cmd c) => h.map_eq fun x hx w hw => h.string hz hx hw
    refine .inl ⟨cmd, _, rfl, fun tree => ⟨?_, ?_⟩⟩
    · rintro ⟨us, hus, hderives'⟩
      obtain ⟨-, c', hc', -, hunique⟩ := hends us hus
      rw [hunique tree hderives', ← hstrings hc']
    · rintro rfl
      exact ⟨ts, hspells, hstrings hc ▸ hderives⟩

/-- The string `a<b|c&` says: in the background, `a` with its input from `b`, piped into `c`. -/
theorem parsecmd_exact_back :
    Sentence [97, 60, 98, 124, 99, 38]
      (.back (.pipe (.redir (.exec [[97]]) [98] readOnly 0) (.exec [[99]]))) := by
  have hrun : (exec (parsecmd 28 ([97, 60, 98, 124, 99, 38] ++ [0])) 0).1 =
      .ok (.back (.pipe (.redir (.exec [(0, 1)]) (2, 3) readOnly 0) (.exec [(4, 5)])),
        [97, 0, 98, 0, 99, 0, 0]) := by
    rfl
  have hz : (0 : UInt8) ∉ [97, 60, 98, 124, 99, 38] := by decide
  have hfuel : 4 * [(97 : UInt8), 60, 98, 124, 99, 38].length + 4 ≤ 28 := by decide
  rcases parsecmd_exact hz hfuel with ⟨cmd, buf, hok, hcmd⟩ | ⟨msg, -, hpanic, -⟩
  · rw [hrun] at hok
    cases hok
    exact (hcmd _).2 rfl
  · rw [hrun] at hpanic
    cases hpanic

/-- **NUL-termination keeps every word**: the words that the parser has recorded are slices of the
line, the string at each is that slice, and the NULs are written inside the line or on its end and
inside none of the words. -/
theorem nulterminate_keeps_words {fuel : Nat} {buf : List UInt8} (hz : 0 ∉ text)
    (hfuel : 4 * text.length + 4 ≤ fuel)
    (h : (exec (parsecmd fuel (text ++ [0])) 0).1 = .ok (cmd, buf)) :
    buf = cmd.words.foldl (fun buf x => buf.set x.2 0) (text ++ [0]) ∧
    ∀ x ∈ cmd.words, x.1 ≤ x.2 ∧ x.2 ≤ text.length ∧
        stringAt buf x.1 = (text.drop x.1).take (x.2 - x.1) ∧
      ∀ y ∈ cmd.words, ¬ (x.1 ≤ y.2 ∧ y.2 < x.2) := by
  obtain ⟨ts, hspells⟩ := exists_spells text
  have hends := ends_parsecmd hz hspells hfuel
  unfold Ends at hends
  rcases hrun : exec (parsecmd fuel (text ++ [0])) 0 with ⟨r, p⟩
  rw [hrun] at h hends
  obtain rfl : r = .ok (cmd, buf) := h
  obtain ⟨hbuf, c, hsaid, -⟩ := hends
  obtain rfl : buf = nulterminate cmd _ := hbuf
  refine ⟨nulterminate_eq cmd _, fun x hx => ?_⟩
  obtain ⟨w, hw⟩ := hsaid.exists_extends x hx
  obtain ⟨hlen, hle⟩ := hw.length
  refine ⟨by omega, hle, ?_, fun y hy hin => ?_⟩
  · rw [hsaid.string hz hx hw, hlen, Nat.add_sub_cancel_left]
    obtain ⟨pre, post, htext, rfl, -⟩ := hw
    rw [htext, List.drop_left, List.take_left]
  · obtain ⟨v, hv⟩ := hsaid.exists_extends y hy
    exact hw.apart hv (k := y.2 - x.1) (by omega) (by omega)

/-- The second word of `a<b|c&`, whose symbols become NULs. -/
theorem nulterminate_keeps_words_back : stringAt [97, 0, 98, 0, 99, 0, 0] 2 = [98] :=
  ((nulterminate_keeps_words (by decide) (by decide)
    (show (exec (parsecmd 28 ([97, 60, 98, 124, 99, 38] ++ [0])) 0).1 = .ok
      (.back (.pipe (.redir (.exec [(0, 1)])
      (2, 3) readOnly 0) (.exec [(4, 5)])), _) from rfl)).2 (2, 3) (by decide)).2.2.1

end Xv6.Shell
