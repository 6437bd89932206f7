import Xv6.Foundation.Circular
import Xv6.Foundation.Monitor

/-! # The console's input

`consoleintr` and `consoleread` of `console.c`: a handler of keyboard interrupts edits a line in a
ring, and processes read what is committed. Every operation on `cons.lock` and on `ptable.lock`,
every character and every byte is a step. The process listing that `^P` asks for is printed after
the lock is released and changes nothing here.

What the handler is for is said by an editor of its own, `Edited`: a list of committed bytes and the
line that is still being typed. The history of the console is what was typed, what the readers took,
and how many calls that asked for something returned `0`.

* **`Consoles.line_discipline`** — the indices stay in order, committed bytes stay in place until
  they are read, and the readers get the committed bytes in order, with a return of `0` for every
  `^D`. -/

namespace Xv6.Consoles

open Foundation

/-- `INPUT_BUF` of `console.c`. -/
abbrev INPUT_BUF : Nat := 128

/-- `C('D')`, the end of file. -/
abbrev ctrlD : UInt8 := 4

/-- `C('H')`, which erases a character, as does `'\x7f'`. -/
abbrev ctrlH : UInt8 := 8

/-- `C('P')`, which asks for a process listing. -/
abbrev ctrlP : UInt8 := 16

/-- `C('U')`, which erases the line. -/
abbrev ctrlU : UInt8 := 21

abbrev delete : UInt8 := 127

abbrev newline : UInt8 := 10

abbrev carriageReturn : UInt8 := 13

/-! ## The editor -/

/-- What was typed so far, edited. -/
structure Edited where
  committed : List UInt8 := []
  pending : List UInt8 := []
  deriving DecidableEq

namespace Edited

/-- An ordinary byte is added to the line; `n` bytes were unread before. -/
def add (x : Edited) (c : UInt8) (n : Nat) : Edited :=
  if c = newline ∨ c = ctrlD ∨ n + 1 = INPUT_BUF then ⟨x.committed ++ (x.pending ++ [c]), []⟩
  else ⟨x.committed, x.pending ++ [c]⟩

/-- **A character is typed** while `n` bytes are unread. -/
def key (x : Edited) (c : UInt8) (n : Nat) : Edited :=
  if c = ctrlP then x
  else if c = ctrlU then ⟨x.committed, []⟩
  else if c = ctrlH ∨ c = delete then ⟨x.committed, x.pending.dropLast⟩
  else if c ≠ 0 ∧ n < INPUT_BUF then x.add (if c = carriageReturn then newline else c) n
  else x

/-- The characters `typed`, each with the number of bytes that were unread. -/
def of (typed : List (UInt8 × Nat)) : Edited := typed.foldl (fun x t => x.key t.1 t.2) {}

theorem of_concat (typed : List (UInt8 × Nat)) (c : UInt8) (n : Nat) :
    of (typed ++ [(c, n)]) = (of typed).key c n := by
  simp [of]

variable {x : Edited} {c : UInt8} {n : Nat}

theorem newline_notMem_add (h : newline ∉ x.pending) : newline ∉ (x.add c n).pending := by
  unfold add
  split
  · exact List.not_mem_nil
  · rename_i hgo
    intro hmem
    rcases List.mem_append.1 hmem with hold | hnew
    · exact h hold
    · exact hgo (.inl (List.mem_singleton.1 hnew).symm)

theorem newline_notMem_key (h : newline ∉ x.pending) : newline ∉ (x.key c n).pending := by
  unfold key
  split
  · exact h
  split
  · exact List.not_mem_nil
  split
  · exact fun hmem => h (List.mem_of_mem_dropLast hmem)
  by_cases hroom : c ≠ 0 ∧ n < INPUT_BUF
  · rw [if_pos hroom]
    exact newline_notMem_add h
  · rw [if_neg hroom]
    exact h

theorem newline_notMem_pending (typed : List (UInt8 × Nat)) : newline ∉ (of typed).pending := by
  induction typed using List.reverseRecOn with
  | nil => exact List.not_mem_nil
  | append_singleton typed t ih =>
    rw [of_concat]
    exact newline_notMem_key ih

theorem committed_prefix_add : x.committed <+: (x.add c n).committed := by
  unfold add
  split
  · exact List.prefix_append _ _
  · exact List.prefix_rfl

theorem committed_prefix_key : x.committed <+: (x.key c n).committed := by
  unfold key
  split
  · exact List.prefix_rfl
  split
  · exact List.prefix_rfl
  split
  · exact List.prefix_rfl
  by_cases hroom : c ≠ 0 ∧ n < INPUT_BUF
  · rw [if_pos hroom]
    exact committed_prefix_add
  · rw [if_neg hroom]

end Edited

/-! ## The code -/

/-- What a reader takes: a byte of data, or a `^D` that makes its call return `0`. -/
inductive Item
  | byte (c : UInt8)
  | eof
  deriving DecidableEq

/-- The character that is taken. -/
def Item.char : Item → UInt8
  | byte c => c
  | eof => ctrlD

/-- `input` of `console.c`, and the history of the console. -/
structure Input where
  buf : Nat → UInt8 := fun _ => 0
  r : Nat := 0
  w : Nat := 0
  e : Nat := 0
  typed : List (UInt8 × Nat) := []
  consumed : List Item := []
  zeroReads : Nat := 0

/-- An `int` as a `uint`. -/
def toUint (n : Int) : Nat := (n % 2 ^ 32).toNat

/-- `b - a` of two `uint`s. -/
def dist (a b : Nat) : Nat := wrapSub b a

namespace Input

variable (d : Input)

/-- What was typed, edited. -/
def edited : Edited := Edited.of d.typed

/-- A character comes from the keyboard. -/
def type (c : UInt8) : Input := { d with typed := d.typed ++ [(c, dist d.r d.e)] }

/-- `input.e--`. -/
def erase : Input := { d with e := wrapSub d.e 1 }

/-- `input.buf[input.e++ % INPUT_BUF] = c`. -/
def store (c : UInt8) : Input :=
  { d with buf := Function.update d.buf (d.e % INPUT_BUF) c, e := wrap (d.e + 1) }

/-- `input.w = input.e`. -/
def commit : Input := { d with w := d.e }

/-- `input.r++`, for good. -/
def take (x : Item) : Input := { d with r := wrap (d.r + 1), consumed := d.consumed ++ [x] }

/-- `input.r++` and `input.r--`. -/
def pushBack : Input := { d with r := wrapSub (wrap (d.r + 1)) 1 }

/-- A call that asked for something returns `0`. -/
def zeroRead : Input := { d with zeroReads := d.zeroReads + 1 }

end Input

/-- The points of the functions. -/
inductive Pc
  | idle
  /-- `consoleintr`, with the characters that `getc` is going to return. -/
  | intrEnter (cs : List UInt8)
  | intrLoop (cs : List UInt8)
  /-- At the condition of the loop that erases the line. -/
  | intrKill (cs : List UInt8)
  | intrWake (cs : List UInt8)
  /-- Releases the lock and returns: from `consoleintr`, and with `-1` from `consoleread`. -/
  | leave
  | readEnter (n : Int)
  /-- At the condition of the loop over the bytes. -/
  | readOuter (target : Nat) (n : Int)
  /-- At the condition of the loop that waits for bytes. -/
  | readInner (target : Nat) (n : Int)
  | readTest (target : Nat) (n : Int)
  | readSleep (target : Nat) (n : Int)
  | readByte (target : Nat) (n : Int)
  | readDone (target : Nat) (n : Int)
  /-- Releases the lock and returns `target - n`. -/
  | readLeave (target : Nat) (n : Int)
  deriving DecidableEq

/-- The `default` case of `consoleintr`. -/
def intrDefault (c : UInt8) (cs : List UInt8) (d : Input) : Pc × Input :=
  if c ≠ 0 ∧ dist d.r d.e < INPUT_BUF then
    let c := if c = carriageReturn then newline else c
    let d' := d.store c
    if c = newline ∨ c = ctrlD ∨ d'.e = wrap (d'.r + INPUT_BUF) then (.intrWake cs, d'.commit)
    else (.intrLoop cs, d')
  else (.intrLoop cs, d)

/-- The `switch` of `consoleintr`. -/
def intrSwitch (c : UInt8) (cs : List UInt8) (d : Input) : Pc × Input :=
  if c = ctrlP then (.intrLoop cs, d)
  else if c = ctrlU then (.intrKill cs, d)
  else if c = ctrlH ∨ c = delete then (.intrLoop cs, if d.e ≠ d.w then d.erase else d)
  else intrDefault c cs d

/-- A byte is taken out of the ring by `consoleread`. -/
def readByte (target : Nat) (n : Int) (d : Input) : Pc × Input :=
  let c := d.buf (d.r % INPUT_BUF)
  if c = ctrlD then
    if toUint n < target then (.readDone target n, d.pushBack)
      else (.readDone target n, d.take .eof)
  else if c = newline then (.readDone target (n - 1), d.take (.byte c))
  else (.readOuter target (n - 1), d.take (.byte c))

/-- A call that asked for something has got nothing. -/
def gotNothing (target : Nat) (n : Int) : Bool := 0 < n ∧ toUint n = target

variable {P : Type}

/-- The code of `console.c`. -/
def code (_ : P) : Pc → Instr Pc Unit Unit P Input
  | .idle => .halt
  | .intrEnter cs => .acquire (some ()) (.intrLoop cs)
  | .intrLoop [] => .act fun d => (.leave, d)
  -- the number of unread bytes is noted before the character does anything
  | .intrLoop (c :: cs) => .act fun d => intrSwitch c cs (d.type c)
  | .intrKill cs => .act fun d =>
    if d.e ≠ d.w ∧ d.buf (wrapSub d.e 1 % INPUT_BUF) ≠ newline then (.intrKill cs, d.erase)
    else (.intrLoop cs, d)
  | .intrWake cs => .wakeup () (.intrLoop cs)
  | .leave => .release (some ()) .idle
  | .readEnter n => .acquire (some ()) (.readOuter (toUint n) n)
  | .readOuter target n => .act fun d =>
    (if 0 < n then .readInner target n else .readDone target n, d)
  | .readInner target n => .act fun d =>
    (if d.r = d.w then .readTest target n else .readByte target n, d)
  | .readTest target n => .test fun _ killed => if killed then .leave else .readSleep target n
  | .readSleep target n => .sleep () (some ()) (.readInner target n)
  | .readByte target n => .act (readByte target n)
  | .readDone target n => .act fun d =>
    (.readLeave target n, if gotNothing target n then d.zeroRead else d)
  | .readLeave _ _ => .release (some ()) .idle

/-- Who is in no call may begin one; lengths are `int`s. -/
def entry (_ : P) (_ : Pc) : Pc → Bool
  | .intrEnter _ => true
  | .readEnter n => -2 ^ 31 ≤ n ∧ n < 2 ^ 31
  | _ => false

/-- Processes and interrupt handlers that share the console. -/
abbrev State (P : Type) := Monitor Pc Unit Unit P Input

/-- After `consoleinit`. -/
def boot (killed : P → Bool) : State P where
  data := {}
  lock := fun _ => none
  place := fun _ => .on .idle
  killed := killed

/-! ## The ring -/

namespace Input

/-- **The ring holds what is committed and not taken, and then the line `q`.** -/
structure Ring (d : Input) (C q : List UInt8) : Prop where
  r : d.r = wrap d.consumed.length
  w : d.w = wrap C.length
  e : d.e = wrap (C ++ q).length
  le : d.consumed.length ≤ C.length
  room : (C ++ q).length ≤ d.consumed.length + INPUT_BUF
  buf : Circular INPUT_BUF d.buf (C ++ q) d.consumed.length
  consumed : d.consumed.map Item.char = C.take d.consumed.length

theorem INPUT_BUF_dvd : INPUT_BUF ∣ 2 ^ 32 := ⟨2 ^ 25, by decide⟩

variable {d : Input} {C q : List UInt8} {c : UInt8}

namespace Ring

theorem length_append (_ : d.Ring C q) : (C ++ q).length = C.length + q.length := List.length_append

section

variable (h : d.Ring C q)

include h

theorem le_append : d.consumed.length ≤ (C ++ q).length := by
  rw [h.length_append]
  exact h.le.trans (Nat.le_add_right _ _)

theorem append_lt : (C ++ q).length < d.consumed.length + 2 ^ 32 :=
  h.room.trans_lt (by unfold INPUT_BUF; omega)

theorem dist_e : dist d.r d.e = (C ++ q).length - d.consumed.length := by
  rw [dist, h.r, h.e]
  exact wrapSub_wrap h.le_append h.append_lt

theorem dist_w : dist d.r d.w = C.length - d.consumed.length := by
  rw [dist, h.r, h.w]
  refine wrapSub_wrap h.le ?_
  have := h.append_lt
  rw [h.length_append] at this
  omega

theorem ordered : dist d.r d.w ≤ dist d.r d.e ∧ dist d.r d.e ≤ INPUT_BUF := by
  have := h.room
  have := h.length_append
  rw [h.dist_w, h.dist_e]
  omega

theorem w_eq_e_iff : d.e = d.w ↔ q = [] := by
  have hlt : (C ++ q).length < C.length + 2 ^ 32 := h.append_lt.trans_le (by have := h.le; omega)
  rw [eq_comm, h.w, h.e, wrap_inj (by simp) hlt]
  simp

theorem r_eq_w_iff : d.r = d.w ↔ d.consumed.length = C.length := by
  have hlt : C.length < d.consumed.length + 2 ^ 32 := by
    have := h.append_lt
    rw [h.length_append] at this
    omega
  rw [h.r, h.w]
  exact wrap_inj h.le hlt

theorem type : (d.type c).Ring C q := { h with }

theorem zeroRead : d.zeroRead.Ring C q :=
  { h with }

theorem store (hroom : dist d.r d.e < INPUT_BUF) : (d.store c).Ring C (q ++ [c]) := by
  have hlt : (C ++ q).length < d.consumed.length + INPUT_BUF := by
    have := h.le_append
    rw [h.dist_e] at hroom
    omega
  have hlen : (C ++ (q ++ [c])).length = (C ++ q).length + 1 := by simp [Nat.add_assoc]
  refine ⟨h.r, h.w, ?_, h.le, ?_, ?_, h.consumed⟩
  · show wrap (d.e + 1) = wrap (C ++ (q ++ [c])).length
    rw [h.e, wrap_wrap_add, hlen]
  · show (C ++ (q ++ [c])).length ≤ d.consumed.length + INPUT_BUF
    rwa [hlen]
  · show Circular INPUT_BUF (Function.update d.buf (d.e % INPUT_BUF) c) (C ++ (q ++ [c])) _
    rw [h.e, wrap_mod INPUT_BUF_dvd, ← List.append_assoc]
    exact h.buf.push hlt c

theorem commit : d.commit.Ring (C ++ q) [] := by
  refine ⟨h.r, h.e, ?_, h.le_append, ?_, ?_, ?_⟩
  · rw [List.append_nil]
    exact h.e
  · rw [List.append_nil]
    exact h.room
  · rw [List.append_nil]
    exact h.buf
  · show d.consumed.map Item.char = (C ++ q).take d.consumed.length
    rw [List.take_append_of_le_length h.le]
    exact h.consumed

theorem full_iff :
    d.e = wrap (d.r + INPUT_BUF) ↔ (C ++ q).length = d.consumed.length + INPUT_BUF := by
  have hlt : d.consumed.length + INPUT_BUF < (C ++ q).length + 2 ^ 32 := by
    have := h.le_append
    unfold INPUT_BUF
    omega
  rw [h.e, h.r, wrap_wrap_add]
  exact wrap_inj h.room hlt

end

theorem length_concat (_ : d.Ring C (q ++ [c])) : (C ++ (q ++ [c])).length = (C ++
    q).length + 1 := by
  simp [Nat.add_assoc]

theorem e_pred (h : d.Ring C (q ++ [c])) : wrapSub d.e 1 = wrap (C ++ q).length := by
  rw [h.e, h.length_concat]
  exact wrapSub_one _

theorem erase (h : d.Ring C (q ++ [c])) : d.erase.Ring C q := by
  refine { h with e := h.e_pred, room := ?_, buf := h.buf.shorten ?_ }
  · have := h.room
    rw [h.length_concat] at this
    exact Nat.le_of_succ_le this
  · rw [← List.append_assoc]
    exact List.prefix_append _ _

theorem last (h : d.Ring C (q ++ [c])) : d.buf (wrapSub d.e 1 % INPUT_BUF) = c := by
  have hlt : (C ++ q).length < (C ++ (q ++ [c])).length := by
    rw [h.length_concat]
    exact Nat.lt_succ_self _
  have hle : d.consumed.length ≤ (C ++ q).length := by
    rw [List.length_append]
    exact h.le.trans (Nat.le_add_right _ _)
  rw [h.e_pred, wrap_mod INPUT_BUF_dvd, h.buf _ hle hlt]
  simp [← List.append_assoc]

theorem next (h : d.Ring C q) (hlt : d.consumed.length < C.length) :
    d.buf (d.r % INPUT_BUF) = C[d.consumed.length] := by
  have hlt' : d.consumed.length < (C ++ q).length := by
    rw [h.length_append]
    omega
  rw [h.r, wrap_mod INPUT_BUF_dvd, h.buf _ le_rfl hlt', List.getElem_append_left hlt]

theorem take {x : Item} (h : d.Ring C q) (hlt : d.consumed.length < C.length)
    (hx : x.char = d.buf (d.r % INPUT_BUF)) : (d.take x).Ring C q := by
  have hlen : (d.consumed ++ [x]).length = d.consumed.length + 1 := by simp
  refine ⟨?_, h.w, h.e, ?_, ?_, h.buf.forget ?_, ?_⟩
  · show wrap (d.r + 1) = wrap (d.consumed ++ [x]).length
    rw [h.r, wrap_wrap_add, hlen]
  · show (d.consumed ++ [x]).length ≤ C.length
    rwa [hlen]
  · show (C ++ q).length ≤ (d.consumed ++ [x]).length + INPUT_BUF
    have := h.room
    omega
  · show d.consumed.length ≤ (d.consumed ++ [x]).length
    omega
  · show (d.consumed ++ [x]).map Item.char = C.take (d.consumed ++ [x]).length
    rw [hlen, List.take_add_one, List.map_append, h.consumed, List.map_singleton, hx, h.next hlt]
    simp [hlt]

theorem pushBack (h : d.Ring C q) : d.pushBack.Ring C q := by
  refine { h with r := ?_ }
  show wrapSub (wrap (d.r + 1)) 1 = wrap d.consumed.length
  rw [h.r, wrap_wrap_add]
  exact wrapSub_one _

end Ring

theorem edited_type : (d.type c).edited = d.edited.key c (dist d.r d.e) := Edited.of_concat ..

/-- What the readers took: no `^D` as data, and a return of `0` for every `^D`, but for `owed`
ones. -/
structure Reads (d : Input) (owed : Nat) : Prop where
  data : ∀ c, .byte c ∈ d.consumed → c ≠ ctrlD
  zero : d.zeroReads + owed = d.consumed.count .eof

theorem Reads.same {d' : Input} {n : Nat} (h : d.Reads n) (hconsumed : d'.consumed = d.consumed)
    (hzero : d'.zeroReads = d.zeroReads) : d'.Reads n := by
  constructor
  · rw [hconsumed]
    exact h.data
  · rw [hconsumed, hzero]
    exact h.zero

/-- The ring of what was typed. -/
def Typed (d : Input) : Prop := d.Ring d.edited.committed d.edited.pending

/-- A line is being erased. -/
def Killing (d : Input) : Prop :=
  ∃ q, d.Ring d.edited.committed q ∧ newline ∉ q ∧ d.edited.pending = []

end Input

/-! ## The proof outline -/

open Input

/-- The lengths of a call of `consoleread`. -/
def Span (target : Nat) (n : Int) : Prop := 0 < n → toUint n ≤ target ∧ n < 2 ^ 31

/-- What a point says of the lengths. -/
def Pc.Spans : Pc → Prop
  | .readEnter n => n < 2 ^ 31
  | .readOuter target n => Span target n
  | .readInner target n | .readTest target n | .readSleep target n | .readByte target n =>
    0 < n ∧ Span target n
  | _ => True

/-- **The outline**: while `cons.lock` is free, the buffer is the ring of what was typed, and a `0`
was returned for every `^D` taken. Inside `consoleintr` a line may be half erased; a reader about to
take a byte has seen one, and a read that got nothing owes the `0` for its `^D`. -/
def outline : Outline Pc Unit P Input where
  inv d := d.Typed ∧ d.Reads 0
  wait _ _ := True
  own _ pc _ := pc.Spans
  free _
    | .idle | .intrEnter _ | .readEnter _ => True
    | _ => False
  held _ pc d _ := pc.Spans ∧
    match pc with
    | .intrKill _ => d.Killing ∧ d.Reads 0
    | .readByte _ _ => d.Typed ∧ d.Reads 0 ∧ d.r ≠ d.w
    | .readDone target n => d.Typed ∧ d.Reads (if gotNothing target n then 1 else 0)
    | .idle | .intrEnter _ | .readEnter _ => False
    | _ => d.Typed ∧ d.Reads 0

variable {d : Input} {c : UInt8} {cs : List UInt8}

variable {allow : Input → Bool → Prop} {p : P} {owed : Set Unit} {target : Nat} {n : Int} {pc : Pc}
  {s : State P}

theorem heldStep_act {f : Input → Pc × Input} (h : (outline (P := P)).held p (f d).1 (f d).2 owed) :
    outline.HeldStep allow p d owed (.act f) :=
  ⟨h, fun _ _ _ hown => hown⟩

theorem typed_default (hring : d.Typed) (hreads : d.Reads 0) (hP : c ≠ ctrlP) (hU : c ≠ ctrlU)
    (hH : ¬ (c = ctrlH ∨ c = delete)) :
    (outline (P := P)).held p (intrDefault c cs (d.type c)).1
      (intrDefault c cs (d.type c)).2 owed := by
  have hkey : (d.type c).edited = if c ≠ 0 ∧ dist d.r d.e < INPUT_BUF then
      d.edited.add (if c = carriageReturn then newline else c) (dist d.r d.e) else d.edited := by
    rw [edited_type, Edited.key, if_neg hP, if_neg hU, if_neg hH]
  unfold intrDefault
  by_cases hroom : c ≠ 0 ∧ dist d.r d.e < INPUT_BUF
  · rw [if_pos hroom] at hkey
    rw [if_pos (show c ≠ 0 ∧ dist (d.type c).r (d.type c).e < INPUT_BUF from hroom)]
    generalize (if c = carriageReturn then newline else c) = b at hkey
    have hstore : ((d.type c).store b).Ring d.edited.committed (d.edited.pending ++ [b]) :=
      hring.type.store hroom.2
    -- the buffer is full after the byte if one byte was missing before
    have hfull : ((d.type c).store b).e = wrap (((d.type c).store b).r + INPUT_BUF) ↔
        dist d.r d.e + 1 = INPUT_BUF := by
      have hle := hring.le_append
      rw [hstore.full_iff, hring.dist_e, ← List.append_assoc, List.length_append,
        List.length_singleton]
      show _ = d.consumed.length + INPUT_BUF ↔ _
      omega
    simp only [hfull]
    rw [Edited.add] at hkey
    split
    · rename_i hend
      rw [if_pos hend] at hkey
      refine ⟨trivial, ?_, hreads.same rfl rfl⟩
      show ((d.type c).store b).commit.Ring (d.type c).edited.committed (d.type c).edited.pending
      rw [hkey]
      exact hstore.commit
    · rename_i hgo
      rw [if_neg hgo] at hkey
      refine ⟨trivial, ?_, hreads.same rfl rfl⟩
      show ((d.type c).store b).Ring (d.type c).edited.committed (d.type c).edited.pending
      rw [hkey]
      exact hstore
  · rw [if_neg hroom] at hkey
    rw [if_neg (show ¬ (c ≠ 0 ∧ dist (d.type c).r (d.type c).e < INPUT_BUF) from hroom)]
    refine ⟨trivial, ?_, hreads.same rfl rfl⟩
    show (d.type c).Ring (d.type c).edited.committed (d.type c).edited.pending
    rw [hkey]
    exact hring.type

theorem typed_switch (hring : d.Typed) (hreads : d.Reads 0) :
    (outline (P := P)).held p (intrSwitch c cs (d.type c)).1
      (intrSwitch c cs (d.type c)).2 owed := by
  have hedited := edited_type (d := d) (c := c)
  unfold intrSwitch
  by_cases hP : c = ctrlP
  · rw [if_pos hP]
    refine ⟨trivial, ?_, hreads.same rfl rfl⟩
    rw [Edited.key, if_pos hP] at hedited
    rw [Typed, hedited]
    exact hring.type
  rw [if_neg hP]
  by_cases hU : c = ctrlU
  · rw [if_pos hU]
    rw [Edited.key, if_neg hP, if_pos hU] at hedited
    refine ⟨trivial, ⟨d.edited.pending, ?_, Edited.newline_notMem_pending _, ?_⟩,
      hreads.same rfl rfl⟩
    · rw [hedited]
      exact hring.type
    · rw [hedited]
  rw [if_neg hU]
  by_cases hH : c = ctrlH ∨ c = delete
  · rw [if_pos hH]
    rw [Edited.key, if_neg hP, if_neg hU, if_pos hH] at hedited
    refine ⟨trivial, ?_, ?_⟩
    · rcases List.eq_nil_or_concat d.edited.pending with hnil | ⟨q, b, hq⟩
      · have he : (d.type c).e = (d.type c).w := hring.w_eq_e_iff.2 hnil
        rw [if_neg (not_not.2 he), Typed, hedited, hnil]
        have := hring.type (c := c)
        rwa [hnil] at this
      · have he : (d.type c).e ≠ (d.type c).w := fun he => by
          have := hring.w_eq_e_iff.1 he
          rw [hq] at this
          simp at this
        rw [if_pos he]
        show (d.type c).erase.Ring (d.type c).edited.committed (d.type c).edited.pending
        rw [hedited, hq, List.concat_eq_append, List.dropLast_concat]
        have := hring.type (c := c)
        rw [hq, List.concat_eq_append] at this
        exact this.erase
    · split
      · exact hreads.same rfl rfl
      · exact hreads.same rfl rfl
  rw [if_neg hH]
  exact typed_default hring hreads hP hU hH

theorem typed_kill (hkill : d.Killing) (hreads : d.Reads 0) :
    (outline (P := P)).HeldStep allow p d owed (code p (.intrKill cs)) := by
  obtain ⟨q, hring, hnewline, hpending⟩ := hkill
  refine heldStep_act ?_
  rcases List.eq_nil_or_concat q with rfl | ⟨q, b, rfl⟩
  · have he : d.e = d.w := hring.w_eq_e_iff.2 rfl
    rw [if_neg fun hgo => hgo.1 he]
    refine ⟨trivial, ?_, hreads⟩
    rw [Typed, hpending]
    exact hring
  · rw [List.concat_eq_append] at hring hnewline
    have he : d.e ≠ d.w := fun he => by simpa using hring.w_eq_e_iff.1 he
    have hb : b ≠ newline := by
      rintro rfl
      exact hnewline (by simp)
    have hgo : d.e ≠ d.w ∧ d.buf (wrapSub d.e 1 % INPUT_BUF) ≠ newline := by
      rw [hring.last]
      exact ⟨he, hb⟩
    rw [if_pos hgo]
    refine ⟨trivial, ⟨q, hring.erase, ?_, hpending⟩, hreads.same rfl rfl⟩
    exact fun hmem => hnewline (List.mem_append_left _ hmem)

theorem span_pred (hn : 0 < n) (h : Span target n) :
    Span target (n - 1) ∧ gotNothing target (n - 1) = false := by
  obtain ⟨hle, hlt⟩ := h hn
  have hpred : 0 < n - 1 → toUint (n - 1) < toUint n := by
    intro hpos
    unfold toUint
    omega
  constructor
  · intro hpos
    exact ⟨(hpred hpos).le.trans hle, by omega⟩
  · simp only [gotNothing, decide_eq_false_iff_not]
    rintro ⟨hpos, heq⟩
    have := hpred hpos
    omega

theorem Input.Reads.takeByte (h : d.Reads 0) (hc : c ≠ ctrlD) : (d.take (.byte c)).Reads 0 := by
  constructor
  · intro b hb
    rcases List.mem_append.1 hb with hold | hnew
    · exact h.data b hold
    · obtain rfl : b = c := Item.byte.inj (List.mem_singleton.1 hnew)
      exact hc
  · show d.zeroReads + 0 = (d.consumed ++ [Item.byte c]).count .eof
    rw [List.count_append, h.zero]
    rfl

theorem Input.Reads.takeEof (h : d.Reads 0) : (d.take .eof).Reads 1 := by
  constructor
  · intro b hb
    rcases List.mem_append.1 hb with hold | hnew
    · exact h.data b hold
    · cases List.mem_singleton.1 hnew
  · show d.zeroReads + 1 = (d.consumed ++ [Item.eof]).count .eof
    rw [List.count_append, ← h.zero]
    rfl

theorem read_byte (hn : 0 < n) (hspan : Span target n) (hring : d.Typed) (hreads : d.Reads 0)
    (hsome : d.r ≠ d.w) :
    (outline (P := P)).held p (readByte target n d).1 (readByte target n d).2 owed := by
  have hlt : d.consumed.length < d.edited.committed.length := by
    have hne : d.consumed.length ≠ d.edited.committed.length :=
      fun h => hsome (hring.r_eq_w_iff.2 h)
    have := hring.le
    omega
  obtain ⟨hpred, hgot⟩ := span_pred hn hspan
  unfold readByte
  dsimp only
  split
  · rename_i hD
    split
    · -- some bytes came before the `^D`
      rename_i hless
      have hno : gotNothing target n = false := by
        simp only [gotNothing, decide_eq_false_iff_not]
        exact fun h => hless.ne h.2
      refine ⟨trivial, hring.pushBack, ?_⟩
      rw [hno]
      exact hreads.same rfl rfl
    · -- the call is at its beginning
      rename_i hge
      have hyes : gotNothing target n = true := by
        simp only [gotNothing, decide_eq_true_eq]
        exact ⟨hn, (hspan hn).1.antisymm (not_lt.1 hge)⟩
      refine ⟨trivial, hring.take hlt hD.symm, ?_⟩
      rw [hyes]
      exact hreads.takeEof
  · rename_i hD
    split
    · refine ⟨trivial, hring.take hlt rfl, ?_⟩
      rw [hgot]
      exact hreads.takeByte hD
    · exact ⟨hpred, hring.take hlt rfl, hreads.takeByte hD⟩

theorem outline_entry {old : Pc} (h : entry p old pc = true) :
    (outline (P := P)).free p pc ∧ pc.Spans := by
  cases pc with
  | intrEnter cs => exact ⟨trivial, trivial⟩
  | readEnter n => exact ⟨trivial, (of_decide_eq_true h).2⟩
  | _ => cases h

theorem outline_free (h : (outline (P := P)).free p pc) : outline.FreeStep p pc (code p pc) := by
  cases pc with
  | idle => trivial
  | intrEnter cs => exact ⟨fun d hinv _ => ⟨trivial, hinv⟩, fun _ _ => trivial⟩
  | readEnter n =>
    have hspan : n < 2 ^ 31 → Span (toUint n) n := fun hlt _ => ⟨le_rfl, hlt⟩
    exact ⟨fun d hinv hown => ⟨hown, hinv⟩, fun _ hown => hspan hown⟩
  | _ => exact h.elim

theorem outline_held (h : (outline (P := P)).held p pc d owed) :
    outline.HeldStep allow p d owed (code p pc) := by
  obtain ⟨hspan, hpc⟩ := h
  cases pc with
  | intrLoop cs =>
    cases cs with
    | nil => exact heldStep_act ⟨trivial, hpc⟩
    | cons c cs => exact heldStep_act (typed_switch hpc.1 hpc.2)
  | intrKill cs => exact typed_kill hpc.1 hpc.2
  | intrWake cs => exact ⟨trivial, hpc⟩
  | leave | readLeave target n => exact ⟨⟨hpc, fun _ _ => trivial⟩, trivial, trivial⟩
  | readOuter target n =>
    refine heldStep_act ?_
    by_cases hn : 0 < n
    · simp only [hn, if_true]
      exact ⟨⟨hn, hspan⟩, hpc⟩
    · simp only [hn, if_false]
      have hno : gotNothing target n = false := by
        simp only [gotNothing, decide_eq_false_iff_not]
        exact fun h => hn h.1
      refine ⟨trivial, hpc.1, ?_⟩
      rw [hno]
      exact hpc.2
  | readInner target n =>
    refine heldStep_act ?_
    by_cases hsome : d.r = d.w
    · simp only [hsome, if_true]
      exact ⟨hspan, hpc⟩
    · simp only [hsome, if_false]
      exact ⟨hspan, hpc.1, hpc.2, hsome⟩
  | readTest target n =>
    intro killed _
    cases killed with
    | false => exact ⟨hspan, hpc⟩
    | true => exact ⟨trivial, hpc⟩
  | readSleep target n =>
    exact ⟨⟨hpc, fun _ _ => trivial⟩, trivial, fun _ hinv hown => ⟨hown, hinv⟩, hspan⟩
  | readByte target n =>
    exact heldStep_act (read_byte hspan.1 hspan.2 hpc.1 hpc.2.1 hpc.2.2)
  | readDone target n =>
    obtain ⟨hring, hreads⟩ := hpc
    refine heldStep_act ⟨trivial, ?_⟩
    cases hgot : gotNothing target n with
    | false =>
      rw [hgot] at hreads
      exact ⟨hring, hreads⟩
    | true =>
      rw [hgot] at hreads
      exact ⟨hring.zeroRead, hreads.data, hreads.zero⟩
  | _ => exact hpc.elim

theorem outline_valid :
    (outline (P := P)).Valid code entry fun _ _ _ => True where
  entry h _ := ⟨(outline_entry h).1, fun _ _ => (outline_entry h).2⟩
  free := outline_free
  held := outline_held

/-! ## What an action keeps -/

/-- What is committed, and what is taken, is never taken back. -/
structure Input.Grows (d d' : Input) : Prop where
  committed : d.edited.committed <+: d'.edited.committed
  consumed : d.consumed <+: d'.consumed

theorem intrSwitch_keeps (c : UInt8) (cs : List UInt8) (d : Input) :
    (intrSwitch c cs d).2.typed = d.typed ∧ (intrSwitch c cs d).2.consumed = d.consumed := by
  unfold intrSwitch
  split
  · exact ⟨rfl, rfl⟩
  split
  · exact ⟨rfl, rfl⟩
  split
  · dsimp only
    split
    · exact ⟨rfl, rfl⟩
    · exact ⟨rfl, rfl⟩
  · unfold intrDefault
    dsimp only
    generalize (if c = carriageReturn then newline else c) = b
    split
    · split
      · exact ⟨rfl, rfl⟩
      · exact ⟨rfl, rfl⟩
    · exact ⟨rfl, rfl⟩

theorem grows_of_eq {d' : Input} (htyped : d'.typed = d.typed)
    (hconsumed : d.consumed <+: d'.consumed) :
    d.Grows d' := by
  refine ⟨?_, hconsumed⟩
  rw [edited, edited, htyped]

theorem grows_readByte : d.Grows (readByte target n d).2 := by
  unfold readByte
  dsimp only
  split
  · split
    · exact grows_of_eq rfl List.prefix_rfl
    · exact grows_of_eq rfl (List.prefix_append _ _)
  · split
    · exact grows_of_eq rfl (List.prefix_append _ _)
    · exact grows_of_eq rfl (List.prefix_append _ _)

theorem grows_act {f : Input → Pc × Input} (h : code p pc = .act f) : d.Grows (f d).2 := by
  cases pc with
  | intrLoop cs =>
    cases cs with
    | nil =>
      cases h
      exact grows_of_eq rfl List.prefix_rfl
    | cons c cs =>
      cases h
      obtain ⟨htyped, hconsumed⟩ := intrSwitch_keeps c cs (d.type c)
      constructor
      · rw [edited, edited, htyped]
        show _ <+: (d.type c).edited.committed
        rw [edited_type]
        exact Edited.committed_prefix_key
      · rw [hconsumed]
        exact List.prefix_rfl
  | intrKill cs | readDone target n =>
    cases h
    dsimp only
    split
    · exact grows_of_eq rfl List.prefix_rfl
    · exact grows_of_eq rfl List.prefix_rfl
  | readOuter target n | readInner target n =>
    cases h
    exact grows_of_eq rfl List.prefix_rfl
  | readByte target n =>
    cases h
    exact grows_readByte
  | _ => cases h

theorem grows_step [DecidableEq P] {s' : State P} {ev : MonitorEvent Pc P}
    (h : Monitor.step code entry s ev = some s') : s.data.Grows s'.data := by
  rcases Monitor.data_of_step h with hsame | ⟨p, pc, f, hact, hdata⟩
  · rw [hsame]
    exact grows_of_eq rfl List.prefix_rfl
  · rw [hdata]
    exact grows_act hact

/-! ## Main result -/

theorem safe_of_reachable [DecidableEq P] {killed : P → Bool}
    (h : Reachable (Monitor.step code entry) (boot killed) s) : (outline (P := P)).Safe s := by
  have hring : ({} : Input).Ring [] [] :=
    ⟨wrap_zero.symm, wrap_zero.symm, wrap_zero.symm, le_rfl, Nat.zero_le _, Circular.nil, rfl⟩
  have hboot : (outline (P := P)).Safe (boot killed) :=
    Outline.safe_of_idle (fun _ => rfl) (fun _ => ⟨.idle, rfl, trivial, trivial⟩)
      ⟨hring, fun _ hc => absurd hc List.not_mem_nil, rfl⟩
  refine Outline.safe outline_valid hboot (h.mono fun s e _ => ?_)
  cases e with
  | start p pc => trivial
  | turn p => exact fun _ _ => trivial

theorem ring_of_safe (h : (outline (P := P)).Safe s) :
    (∃ q, s.data.Ring s.data.edited.committed q) ∧
      ∀ c, .byte c ∈ s.data.consumed → c ≠ ctrlD := by
  refine h.always (J := fun d => (∃ q, d.Ring d.edited.committed q) ∧
    ∀ c, .byte c ∈ d.consumed → c ≠ ctrlD) (fun d hd => ⟨⟨_, hd.1⟩, hd.2.data⟩) ?_
  rintro p pc d owed ⟨-, hpc⟩
  cases pc with
  | idle | intrEnter cs | readEnter n => exact hpc.elim
  | intrKill cs =>
    obtain ⟨⟨q, hring, -⟩, hreads⟩ := hpc
    exact ⟨⟨q, hring⟩, hreads.data⟩
  | readByte target n => exact ⟨⟨_, hpc.1⟩, hpc.2.1.data⟩
  | _ => exact ⟨⟨_, hpc.1⟩, hpc.2.data⟩

/-- **The line discipline.** However interrupts and calls of `consoleread` interleave, in every
state * the indices are in order, at most `INPUT_BUF` apart; `r` counts what was taken and `w` what
is committed; * what the readers took is, in order, the beginning of what is committed, no `^D` was
taken as data, and while `cons.lock` is free as many calls that asked for something have returned
`0` as `^D`s were taken; * the next step takes nothing back, and changes no committed byte that is
not taken yet. -/
theorem line_discipline [DecidableEq P] {killed : P → Bool} {s : State P}
    (h : Reachable (Monitor.step code entry) (boot killed) s) :
    (dist s.data.r s.data.w ≤ dist s.data.r s.data.e ∧ dist s.data.r s.data.e ≤ INPUT_BUF) ∧
      s.data.consumed.map Item.char <+: s.data.edited.committed ∧
      (∀ c, .byte c ∈ s.data.consumed → c ≠ ctrlD) ∧
      (s.lock (some ()) = none → s.data.zeroReads = s.data.consumed.count .eof) ∧
      (s.data.r = wrap s.data.consumed.length ∧ s.data.w = wrap s.data.edited.committed.length) ∧
      ∀ ev s', Monitor.step code entry s ev = some s' →
        s.data.Grows s'.data ∧
        ∀ k, s'.data.consumed.length ≤ k → k < s.data.edited.committed.length →
          s'.data.buf (k % INPUT_BUF) = s.data.buf (k % INPUT_BUF) := by
  have hsafe := safe_of_reachable h
  obtain ⟨⟨q, hring⟩, hdata⟩ := ring_of_safe hsafe
  refine ⟨hring.ordered, ?_, hdata, fun hfree => (hsafe.rest hfree).1.2.zero, ⟨hring.r, hring.w⟩,
    ?_⟩
  · rw [hring.consumed]
    exact List.take_prefix _ _
  · intro ev s' hstep
    have hgrows := grows_step hstep
    refine ⟨hgrows, fun k hk hk' => ?_⟩
    obtain ⟨⟨q', hring'⟩, -⟩ := ring_of_safe (safe_of_reachable (h.next ev trivial hstep))
    have hk1 : k < (s.data.edited.committed ++ q).length := by
      rw [List.length_append]
      omega
    have hk2 : k < s'.data.edited.committed.length := hk'.trans_le hgrows.committed.length_le
    have hk3 : k < (s'.data.edited.committed ++ q').length := by
      rw [List.length_append]
      omega
    rw [hring'.buf k hk hk3, hring.buf k (hgrows.consumed.length_le.trans hk) hk1,
      List.getElem_append_left hk2, List.getElem_append_left hk']
    exact (hgrows.committed.getElem hk').symm

/-- A line with a correction and a `^D` are typed; one reader gets the line up to its end, and the
next one gets nothing. -/
theorem line_discipline_typed :
    ∃ s : State (Fin 2), Reachable (Monitor.step code entry) (boot fun _ => false) s ∧
      s.data.consumed = [.byte 97, .byte newline, .eof] ∧ s.data.zeroReads = 1 := by
  obtain ⟨s, hrun, hs⟩ := exists_run_of_runs (Monitor.step code entry) (fun _ _ => True)
    (boot (P := Fin 2) fun _ => false)
    (.start 0 (.intrEnter [97, 98, ctrlH, carriageReturn, ctrlD]) :: List.replicate 14 (.turn 0) ++
      .start 1 (.readEnter 10) :: List.replicate 9 (.turn 1) ++
      .start 1 (.readEnter 10) :: List.replicate 6 (.turn 1))
    (fun s => decide (s.data.consumed = [.byte 97, .byte newline, .eof] ∧ s.lock (some ()) = none))
    (by decide +kernel)
  obtain ⟨hconsumed, hlock⟩ := of_decide_eq_true hs
  refine ⟨s, hrun, hconsumed, ?_⟩
  rw [(line_discipline hrun).2.2.2.1 hlock, hconsumed]
  rfl

end Xv6.Consoles
