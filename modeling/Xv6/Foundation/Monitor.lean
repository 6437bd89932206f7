import Mathlib.Data.Set.Basic
import Xv6.Foundation.Runs

/-! # Programs that sleep and wake each other

Any number of parties run flow graphs: an instruction at every program point. Data is shared,
protected by spin-locks, and a party may sleep on a channel until another one wakes the channel.
Sleeping and waking go through one more lock, that of the table of parties (`none` among the locks):
`sleep c l` takes it, gives `l` back, and gives the table back once the party is asleep; `wakeup c`
takes it, makes the sleepers on `c` ready, and gives it back. Every operation on a lock is a step of
its own.

A party may be killed: this sets a flag that it can test, and makes it ready if it sleeps.

* **`Outline.safe`** — a proof outline for programs that share one lock: an invariant `inv` of the
  data while the lock is free, a condition `wait c` under which one may sleep on `c`, and an
  assertion for every program point. If every instruction keeps to it, then in every reachable state
  in which the lock is free the invariant holds, and so does `wait c` for every sleeper on `c`.

Programs that test the flag before they sleep are the subject of `Foundation.Killable`. -/

namespace Foundation

/-- An instruction and the program points that come after it. -/
inductive Instr (Pc Lk Ch P σ : Type)
  | acquire (l : Option Lk) (next : Pc)
  | release (l : Option Lk) (next : Pc)
  /-- Read and write the data. -/
  | act (f : σ → Pc × σ)
  /-- Read the data and the own flag. -/
  | test (f : σ → Bool → Pc)
  | sleep (c : Ch) (l : Option Lk) (next : Pc)
  | wakeup (c : Ch) (next : Pc)
  | kill (t : P) (next : Pc)
  /-- The end of a call. -/
  | halt

/-- Where a party is. -/
inductive Place (Pc Lk Ch P : Type)
  | on (pc : Pc)
  /-- In `sleep`, with the table: gives `l` back next. -/
  | leaving (c : Ch) (l : Lk) (pc : Pc)
  /-- In `sleep`, with the table: falls asleep next. -/
  | falling (c : Ch) (l : Option Lk) (pc : Pc)
  | asleep (c : Ch) (l : Option Lk) (pc : Pc)
  /-- Woken up, but not scheduled yet. -/
  | ready (l : Option Lk) (pc : Pc)
  /-- Scheduled, with the table. -/
  | resumed (l : Option Lk) (pc : Pc)
  /-- At the end of `sleep`: takes `l` again next. -/
  | back (l : Lk) (pc : Pc)
  /-- In `wakeup`, with the table. -/
  | waking (c : Ch) (pc : Pc)
  /-- At the end of `wakeup` or of `kill`, with the table. -/
  | ending (pc : Pc)
  /-- In `kill`, with the table. -/
  | killing (t : P) (pc : Pc)
  deriving DecidableEq

/-- Parties, their locks and the data they share. -/
structure Monitor (Pc Lk Ch P σ : Type) where
  data : σ
  lock : Option Lk → Option P
  place : P → Place Pc Lk Ch P
  killed : P → Bool

/-- What happens next: a party that is not in a call begins one, or goes on. -/
inductive MonitorEvent (Pc P : Type)
  | start (p : P) (pc : Pc)
  | turn (p : P)

namespace Monitor

variable {Pc Lk Ch P σ : Type} [DecidableEq Lk] [DecidableEq Ch] [DecidableEq P]

/-- Party `p` goes to another place. -/
@[simps -fullyApplied]
def move (s : Monitor Pc Lk Ch P σ) (p : P) (x : Place Pc Lk Ch P) : Monitor Pc Lk Ch P σ :=
  { s with place := Function.update s.place p x }

/-- Change a lock. -/
@[simps -fullyApplied]
def setLock (s : Monitor Pc Lk Ch P σ) (l : Option Lk) (o : Option P) : Monitor Pc Lk Ch P σ :=
  { s with lock := Function.update s.lock l o }

/-- Change the data. -/
@[simps -fullyApplied]
def setData (s : Monitor Pc Lk Ch P σ) (d : σ) : Monitor Pc Lk Ch P σ := { s with data := d }

/-- A sleeper on `c` becomes ready. -/
def Place.woken (c : Ch) : Place Pc Lk Ch P → Place Pc Lk Ch P
  | .asleep c' l pc => if c' = c then .ready l pc else .asleep c' l pc
  | x => x

/-- A sleeper becomes ready. -/
def Place.roused : Place Pc Lk Ch P → Place Pc Lk Ch P
  | .asleep _ l pc => .ready l pc
  | x => x

/-- All sleepers on `c` become ready. -/
@[simps -fullyApplied]
def wake (s : Monitor Pc Lk Ch P σ) (c : Ch) : Monitor Pc Lk Ch P σ :=
  { s with place := fun q => Place.woken c (s.place q) }

/-- Party `t` is killed. -/
@[simps -fullyApplied]
def strike (s : Monitor Pc Lk Ch P σ) (t : P) : Monitor Pc Lk Ch P σ :=
  { s with
    place := Function.update s.place t (Place.roused (s.place t))
    killed := Function.update s.killed t true }

/-- Party `p` takes the lock `l` on its way to `x`, if it is free. -/
def take (s : Monitor Pc Lk Ch P σ) (p : P) (l : Option Lk) (x : Place Pc Lk Ch P) :
    Option (Monitor Pc Lk Ch P σ) :=
  if s.lock l = none then some ((s.setLock l (some p)).move p x) else none

/-- Party `p` gives the lock `l` back on its way to `x`. Giving back a lock that one does not have
is the end of the system. -/
def give (s : Monitor Pc Lk Ch P σ) (p : P) (l : Option Lk) (x : Place Pc Lk Ch P) :
    Option (Monitor Pc Lk Ch P σ) :=
  if s.lock l = some p then some ((s.setLock l none).move p x) else none

/-- Party `p` executes an instruction. -/
def exec (s : Monitor Pc Lk Ch P σ) (p : P) : Instr Pc Lk Ch P σ → Option (Monitor Pc Lk Ch P σ)
  | .acquire l next => s.take p l (.on next)
  | .release l next => s.give p l (.on next)
  | .act f => some ((s.setData (f s.data).2).move p (.on (f s.data).1))
  | .test f => some (s.move p (.on (f s.data (s.killed p))))
  | .sleep c (some l) next => s.take p none (.leaving c l next)
  | .sleep c none next => some (s.move p (.falling c none next))
  | .wakeup c next => s.take p none (.waking c next)
  | .kill t next => s.take p none (.killing t next)
  | .halt => none

/-- Party `p` goes on. -/
def turn (code : P → Pc → Instr Pc Lk Ch P σ) (s : Monitor Pc Lk Ch P σ) (p : P) :
    Option (Monitor Pc Lk Ch P σ) :=
  match s.place p with
  | .on pc => s.exec p (code p pc)
  | .leaving c l pc => s.give p (some l) (.falling c (some l) pc)
  -- the scheduler gives the table back
  | .falling c l pc => s.give p none (.asleep c l pc)
  | .asleep _ _ _ => none
  -- the scheduler takes the table and hands it over
  | .ready l pc => s.take p none (.resumed l pc)
  | .resumed (some l) pc => s.give p none (.back l pc)
  | .resumed none pc => some (s.move p (.on pc))
  | .back l pc => s.take p (some l) (.on pc)
  | .waking c pc => some ((s.wake c).move p (.ending pc))
  | .ending pc => s.give p none (.on pc)
  | .killing t pc => some ((s.strike t).move p (.ending pc))

/-- **One step.** A party whose call has ended at one point may begin another at every point that
`entry` admits after it. -/
def step (code : P → Pc → Instr Pc Lk Ch P σ) (entry : P → Pc → Pc → Bool)
    (s : Monitor Pc Lk Ch P σ) :
    MonitorEvent Pc P → Option (Monitor Pc Lk Ch P σ)
  | .start p pc =>
    match s.place p with
    | .on old =>
      match code p old with
      | .halt => if entry p old pc then some (s.move p (.on pc)) else none
      | _ => none
    | _ => none
  | .turn p => s.turn code p

/-- The point of a party that tests its flag next. -/
def testing (code : P → Pc → Instr Pc Lk Ch P σ) (s : Monitor Pc Lk Ch P σ) (p : P) : Option Pc :=
  match s.place p with
  | .on pc =>
    match code p pc with
    | .test _ => some pc
    | _ => none
  | _ => none

variable {s s' : Monitor Pc Lk Ch P σ} {p : P}

omit [DecidableEq Ch] in
theorem take_eq_some {l : Option Lk} {x : Place Pc Lk Ch P} :
    s.take p l x = some s' ↔ s.lock l = none ∧ (s.setLock l (some p)).move p x = s' := by
  rw [take, Option.ite_none_right_eq_some, Option.some.injEq]

omit [DecidableEq Ch] in
theorem give_eq_some {l : Option Lk} {x : Place Pc Lk Ch P} :
    s.give p l x = some s' ↔ s.lock l = some p ∧ (s.setLock l none).move p x = s' := by
  rw [give, Option.ite_none_right_eq_some, Option.some.injEq]

theorem start_eq_some {code : P → Pc → Instr Pc Lk Ch P σ} {entry : P → Pc → Pc → Bool} {pc : Pc}
    (h : s.step code entry (.start p pc) = some s') :
    ∃ old, s.place p = .on old ∧ code p old = .halt ∧ entry p old pc = true ∧
      s.move p (.on pc) = s' := by
  simp only [step] at h
  split at h
  case h_2 => cases h
  case h_1 old hx =>
    split at h
    case h_2 => cases h
    case h_1 hhalt =>
      obtain ⟨hentry, h⟩ := Option.ite_none_right_eq_some.1 h
      exact ⟨old, hx, hhalt, hentry, Option.some.inj h⟩

/-- A rule for runs: the tests are made where `allow` admits their answers. -/
def Allowed (code : P → Pc → Instr Pc Lk Ch P σ) (allow : Pc → σ → Bool → Prop)
    (s : Monitor Pc Lk Ch P σ) : MonitorEvent Pc P → Prop
  | .turn p => ∀ pc ∈ s.testing code p, allow pc s.data (s.killed p)
  | .start _ _ => True

instance (code : P → Pc → Instr Pc Lk Ch P σ) (allow : Pc → σ → Bool → Prop)
    [∀ pc d b, Decidable (allow pc d b)] (s : Monitor Pc Lk Ch P σ) :
    ∀ e, Decidable (Allowed code allow s e)
  | .turn p => inferInstanceAs (Decidable (∀ pc ∈ s.testing code p, allow pc s.data (s.killed p)))
  | .start _ _ => .isTrue trivial

theorem data_of_step {code : P → Pc → Instr Pc Lk Ch P σ} {entry : P → Pc → Pc → Bool}
    {e : MonitorEvent Pc P} (h : s.step code entry e = some s') :
    s'.data = s.data ∨ ∃ p pc f, code p pc = .act f ∧ s'.data = (f s.data).2 := by
  have htake : ∀ {p l x}, s.take p l x = some s' → s'.data = s.data := fun hs =>
    (take_eq_some.1 hs).2 ▸ rfl
  have hgive : ∀ {p l x}, s.give p l x = some s' → s'.data = s.data := fun hs =>
    (give_eq_some.1 hs).2 ▸ rfl
  have hmoved : ∀ {s1 : Monitor Pc Lk Ch P σ}, some s1 = some s' → s1.data = s.data →
      s'.data = s.data := fun hs hdata => Option.some.inj hs ▸ hdata
  cases e with
  | start p pc =>
    obtain ⟨old, -, -, -, rfl⟩ := start_eq_some h
    exact .inl rfl
  | turn p =>
    unfold step turn at h
    rcases hx : s.place p with pc | ⟨c, l, pc⟩ | ⟨c, l, pc⟩ | ⟨c, l, pc⟩ | ⟨l, pc⟩ | ⟨_ | l, pc⟩ |
      ⟨l, pc⟩ | ⟨c, pc⟩ | pc | ⟨t, pc⟩
    all_goals simp only [hx] at h
    case on =>
      rcases hi : code p pc with ⟨l, next⟩ | ⟨l, next⟩ | f | f | ⟨c, _ | l, next⟩ | ⟨c, next⟩ |
        ⟨t, next⟩ | _
      all_goals rw [hi] at h
      case act => exact .inr ⟨p, pc, f, hi, Option.some.inj h ▸ rfl⟩
      case acquire | sleep.some | wakeup | kill => exact .inl (htake h)
      case release => exact .inl (hgive h)
      case test | sleep.none => exact .inl (hmoved h rfl)
      case halt => cases h
    case ready | back => exact .inl (htake h)
    case leaving | falling | resumed.some | ending => exact .inl (hgive h)
    case resumed.none | waking | killing => exact .inl (hmoved h rfl)
    case asleep => cases h

/-! ## What a place says -/

/-- The point where the party is or to which it comes back. -/
def Place.pc : Place Pc Lk Ch P → Pc
  | .on pc | .leaving _ _ pc | .falling _ _ pc | .asleep _ _ pc | .ready _ pc | .resumed _ pc
  | .back _ pc | .waking _ pc | .ending pc | .killing _ pc => pc

/-- Whether the party has the table. -/
def Place.hasTable : Place Pc Lk Ch P → Bool
  | .leaving _ _ _ | .falling _ _ _ | .resumed _ _ | .waking _ _ | .ending _ | .killing _ _ => true
  | _ => false

/-- Whether the party sleeps on `c` or is about to. -/
def Place.waitsOn (c : Ch) : Place Pc Lk Ch P → Bool
  | .falling c' _ _ | .asleep c' _ _ => c' = c
  | _ => false

/-- A place from which nobody is woken, or the place after somebody was. -/
def Place.Woken (x y : Place Pc Lk Ch P) : Prop :=
  y = x ∨ ∃ c l pc, x = .asleep c l pc ∧ y = .ready l pc

omit [DecidableEq Lk] [DecidableEq P] in
theorem Place.woken_woken (c : Ch) (x : Place Pc Lk Ch P) : Place.Woken x (Place.woken c x) := by
  cases x with
  | asleep c' l pc =>
    by_cases hc : c' = c
    · exact .inr ⟨c', l, pc, rfl, by rw [Place.woken, if_pos hc]⟩
    · exact .inl (by rw [Place.woken, if_neg hc])
  | _ => exact .inl rfl

omit [DecidableEq Lk] [DecidableEq Ch] [DecidableEq P] in
theorem Place.woken_roused (x : Place Pc Lk Ch P) : Place.Woken x (Place.roused x) := by
  cases x with
  | asleep c l pc => exact .inr ⟨c, l, pc, rfl, rfl⟩
  | _ => exact .inl rfl

omit [DecidableEq Lk] [DecidableEq Ch] in
theorem strike_other (s : Monitor Pc Lk Ch P σ) {q t : P} (x : Place Pc Lk Ch P) (hq : q ≠ p) :
    Place.Woken (s.place q) (((s.strike t).move p x).place q) := by
  rcases eq_or_ne q t with rfl | hqt
  · simpa [hq] using Place.woken_roused (s.place q)
  · exact .inl (by simp [hq, hqt])

namespace Place.Woken

variable {x y : Place Pc Lk Ch P}

omit [DecidableEq Lk] [DecidableEq Ch] [DecidableEq P] in
theorem hasTable (h : Place.Woken x y) : Place.hasTable y = Place.hasTable x := by
  rcases h with rfl | ⟨c, l, pc, rfl, rfl⟩ <;> rfl

omit [DecidableEq Lk] [DecidableEq P] in
theorem waitsOn (h : Place.Woken x y) {c : Ch} (hy : Place.waitsOn c y = true) :
    Place.waitsOn c x = true := by
  rcases h with rfl | ⟨c', l, pc, rfl, rfl⟩
  · exact hy
  · cases hy

end Place.Woken

end Monitor

/-! ## Proof outlines -/

/-- **A proof outline** for programs that share one lock: an invariant of the data, the conditions
for sleeping, and assertions for every program point. Where the party does not have the lock there
is `free`, and where it has there is `held`, about the data and about the channels that are *owed* a
wakeup: their sleepers may have nothing to wait for any more. What `own` says of the data is nobody
else's business: it holds until the party itself goes on. -/
structure Outline (Pc Ch P σ : Type) where
  inv : σ → Prop
  wait : Ch → σ → Prop
  own : P → Pc → σ → Prop
  free : P → Pc → Prop
  held : P → Pc → σ → Set Ch → Prop

namespace Outline

variable {Pc Ch P σ : Type} (A : Outline Pc Ch P σ)

/-- The lock may be given back. -/
def Rested (d : σ) (owed : Set Ch) : Prop := A.inv d ∧ ∀ c ∈ owed, A.wait c d

/-- The party may go on with any data once it has the lock. -/
def Resumes (p : P) (pc : Pc) : Prop := ∀ d, A.inv d → A.own p pc d → A.held p pc d ∅

/-- What an instruction needs where the party does not have the lock. -/
def FreeStep (p : P) (pc : Pc) : Instr Pc Unit Ch P σ → Prop
  | .acquire (some _) next => A.Resumes p next ∧ ∀ d, A.own p pc d → A.own p next d
  | .wakeup _ next => A.free p next ∧ ∀ d, A.own p pc d → A.own p next d
  | .kill _ next => A.free p next ∧ ∀ d, A.own p pc d → A.own p next d
  | .halt => True
  | _ => False

/-- What an instruction needs where the party has the lock. -/
def HeldStep (allow : σ → Bool → Prop) (p : P) (d : σ) (owed : Set Ch) :
    Instr Pc Unit Ch P σ → Prop
  | .act f => A.held p (f d).1 (f d).2 (owed ∪ {c | A.wait c d ∧ ¬ A.wait c (f d).2}) ∧
      ∀ q ≠ p, ∀ pc, A.own q pc d → A.own q pc (f d).2
  | .test f => ∀ b, allow d b → A.held p (f d b) d owed
  | .wakeup c next => A.held p next d (owed \ {c})
  | .release (some _) next => A.Rested d owed ∧ A.free p next ∧ A.own p next d
  | .sleep c (some _) next => A.Rested d owed ∧ A.wait c d ∧ A.Resumes p next ∧ A.own p next d
  | _ => False

/-- **The outline is valid**: every instruction keeps to it, as far as the tests give answers that
`allow` admits. -/
structure Valid (code : P → Pc → Instr Pc Unit Ch P σ) (entry : P → Pc → Pc → Bool)
    (allow : Pc → σ → Bool → Prop) : Prop where
  entry : ∀ {p old pc}, entry p old pc = true → A.free p old →
    A.free p pc ∧ ∀ d, A.own p old d → A.own p pc d
  free : ∀ {p pc}, A.free p pc → A.FreeStep p pc (code p pc)
  held : ∀ {p pc d owed}, A.held p pc d owed → A.HeldStep (allow pc) p d owed (code p pc)

/-- What holds of a party that does not have the lock. -/
def FreeAt (p : P) (d : σ) : Place Pc Unit Ch P → Prop
  | .on pc | .waking _ pc | .ending pc | .killing _ pc => A.free p pc ∧ A.own p pc d
  | .falling _ l pc | .asleep _ l pc | .ready l pc | .resumed l pc =>
    l = some () ∧ A.Resumes p pc ∧ A.own p pc d
  | .back _ pc => A.Resumes p pc ∧ A.own p pc d
  | .leaving _ _ _ => False

/-- What holds of the party that has the lock. -/
def HeldAt (p : P) (d : σ) (owed : Set Ch) : Place Pc Unit Ch P → Prop
  | .on pc | .ending pc => A.held p pc d owed
  | .waking c pc => A.held p pc d (owed \ {c})
  | .leaving c _ pc => A.Rested d owed ∧ A.wait c d ∧ A.Resumes p pc ∧ A.own p pc d
  | _ => False

/-- Nobody sleeps without a reason, except on the channels that are owed a wakeup. -/
def Sleepers [DecidableEq Ch] (s : Monitor Pc Unit Ch P σ) (owed : Set Ch) : Prop :=
  ∀ q c, Monitor.Place.waitsOn c (s.place q) = true → c ∉ owed → A.wait c s.data

/-- **The invariant of a valid outline.** -/
structure Safe [DecidableEq Ch] (s : Monitor Pc Unit Ch P σ) : Prop where
  table : ∀ p, s.lock none = some p ↔ Monitor.Place.hasTable (s.place p) = true
  party : ∀ p, s.lock (some ()) ≠ some p → A.FreeAt p s.data (s.place p)
  holder : ∀ p, s.lock (some ()) = some p →
    ∃ owed, A.HeldAt p s.data owed (s.place p) ∧ A.Sleepers s owed
  rest : s.lock (some ()) = none → A.inv s.data ∧ A.Sleepers s ∅

/-! ### Every step keeps the invariant -/

section

variable {A} [DecidableEq Ch] [DecidableEq P] {s s' : Monitor Pc Unit Ch P σ} {p : P}
  {x y : Place Pc Unit Ch P}

open Monitor

theorem Safe.table_move (h : A.Safe s) {o : Option P} (hself : o = some p ↔ Place.hasTable y = true)
    (hother : ∀ q ≠ p, o = some q ↔ s.lock none = some q) (q : P) :
    o = some q ↔ Place.hasTable (Function.update s.place p y q) = true := by
  rcases eq_or_ne q p with rfl | hq
  · rwa [Function.update_self]
  · rw [Function.update_of_ne hq, ← h.table q, hother q hq]

theorem Safe.table_same (h : A.Safe s) (hx : s.place p = x)
    (hy : Place.hasTable y = Place.hasTable x) :
    ∀ q, s.lock none = some q ↔ Place.hasTable (Function.update s.place p y q) = true :=
  h.table_move (by rw [h.table, hx, hy]) fun _ _ => Iff.rfl

omit [DecidableEq P] in
theorem Sleepers.woken {owed : Set Ch} (h : A.Sleepers s owed) (hdata : s'.data = s.data)
    (hwaits : ∀ q c, Place.waitsOn c (s'.place q) = true → Place.waitsOn c (s.place q) = true) :
    A.Sleepers s' owed := by
  intro q c hq hc
  rw [hdata]
  exact h q c (hwaits q c hq) hc

omit [DecidableEq Ch] [DecidableEq P] in
theorem FreeAt.woken {d : σ} (hat : A.FreeAt p d x) (h : Place.Woken x y) : A.FreeAt p d y := by
  rcases h with rfl | ⟨c, l, pc, rfl, rfl⟩ <;> exact hat

omit [DecidableEq Ch] [DecidableEq P] in
theorem HeldAt.woken {d : σ} {owed : Set Ch} (hat : A.HeldAt p d owed x) (h : Place.Woken x y) :
    A.HeldAt p d owed y := by
  rcases h with rfl | ⟨c, l, pc, rfl, rfl⟩
  · exact hat
  · exact hat.elim

section

variable (h : A.Safe s)

include h

omit [DecidableEq P] in
/-- **A step that leaves the lock and the data alone.** -/
theorem Safe.shift (hdata : s'.data = s.data)
    (hlock : s'.lock (some ()) = s.lock (some ()))
    (htable : ∀ q, s'.lock none = some q ↔ Place.hasTable (s'.place q) = true)
    (hothers : ∀ q ≠ p, Place.Woken (s.place q) (s'.place q))
    (hwaits : ∀ c, Place.waitsOn c (s'.place p) = true → Place.waitsOn c (s.place p) = true)
    (hfree : A.FreeAt p s.data (s.place p) → A.FreeAt p s.data (s'.place p))
    (hheld : ∀ owed, A.HeldAt p s.data owed (s.place p) → A.Sleepers s owed →
      ∃ owed', A.HeldAt p s.data owed' (s'.place p) ∧ A.Sleepers s' owed') : A.Safe s' := by
  have hall : ∀ q c, Place.waitsOn c (s'.place q) = true → Place.waitsOn c (s.place q) = true := by
    intro q c hq
    rcases eq_or_ne q p with rfl | hqp
    · exact hwaits c hq
    · exact (hothers q hqp).waitsOn hq
  constructor
  · exact htable
  · intro q hq
    rw [hlock] at hq
    rw [hdata]
    rcases eq_or_ne q p with rfl | hqp
    · exact hfree (h.party q hq)
    · exact (h.party q hq).woken (hothers q hqp)
  · intro q hq
    rw [hlock] at hq
    obtain ⟨owed, hat, hsleep⟩ := h.holder q hq
    rw [hdata]
    rcases eq_or_ne q p with rfl | hqp
    · exact hheld owed hat hsleep
    · exact ⟨owed, hat.woken (hothers q hqp), hsleep.woken hdata hall⟩
  · intro hq
    rw [hlock] at hq
    obtain ⟨hinv, hsleep⟩ := h.rest hq
    exact ⟨hdata ▸ hinv, hsleep.woken hdata hall⟩

section

variable (hx : s.place p = x)

include hx

theorem Safe.relocate {o : Option P}
    (htable : ∀ q, o = some q ↔ Place.hasTable (Function.update s.place p y q) = true)
    (hwaits : ∀ c, Place.waitsOn c y = true → Place.waitsOn c x = true)
    (hfree : A.FreeAt p s.data x → A.FreeAt p s.data y)
    (hheld : ∀ owed, A.HeldAt p s.data owed x → A.HeldAt p s.data owed y) :
    A.Safe ((s.setLock none o).move p y) := by
  have hself : ((s.setLock none o).move p y).place p = y := by simp
  have hother : ∀ q ≠ p, ((s.setLock none o).move p y).place q = s.place q := by
    intro q hq
    simp [hq]
  refine h.shift rfl (by simp) (by simpa using htable) (fun q hq => .inl (hother q hq)) ?_ ?_ ?_
  · rw [hself, hx]
    exact hwaits
  · rw [hself, hx]
    exact hfree
  · intro owed hat hsleep
    rw [hx] at hat
    rw [hself]
    refine ⟨owed, hheld owed hat, hsleep.woken rfl fun q c hq => ?_⟩
    by_cases hqp : q = p
    · subst hqp
      rw [hself] at hq
      rw [hx]
      exact hwaits c hq
    · rwa [hother q hqp] at hq

theorem Safe.takeTable (hs : s.take p none y = some s')
    (hy : Place.hasTable y = true) (hwaits : ∀ c, Place.waitsOn c y = true →
      Place.waitsOn c x = true)
    (hfree : A.FreeAt p s.data x → A.FreeAt p s.data y)
    (hheld : ∀ owed, A.HeldAt p s.data owed x → A.HeldAt p s.data owed y) : A.Safe s' := by
  obtain ⟨hnone, rfl⟩ := take_eq_some.1 hs
  refine h.relocate hx (h.table_move (by simp [hy]) fun q hq => ?_) hwaits hfree hheld
  simp [hnone, hq.symm]

theorem Safe.giveTable (hs : s.give p none y = some s')
    (hy : Place.hasTable y = false)
    (hwaits : ∀ c, Place.waitsOn c y = true → Place.waitsOn c x = true)
    (hfree : A.FreeAt p s.data x → A.FreeAt p s.data y)
    (hheld : ∀ owed, A.HeldAt p s.data owed x → A.HeldAt p s.data owed y) : A.Safe s' := by
  obtain ⟨hhas, rfl⟩ := give_eq_some.1 hs
  refine h.relocate hx (h.table_move (by simp [hy]) fun q hq => ?_) hwaits hfree hheld
  simp [hhas, hq.symm]

theorem Safe.takeLock {pc : Pc}
    (hs : s.take p (some ()) (.on pc) = some s') (htable : Place.hasTable x = false)
    (hresumes : A.FreeAt p s.data x → A.Resumes p pc ∧ A.own p pc s.data) : A.Safe s' := by
  obtain ⟨hnone, rfl⟩ := take_eq_some.1 hs
  obtain ⟨hinv, hsleep⟩ := h.rest hnone
  have hpc := hresumes (hx ▸ h.party p (by simp [hnone]))
  constructor
  · simpa using h.table_same hx (y := .on pc) htable.symm
  · intro q hq
    have hqp : q ≠ p := by
      rintro rfl
      simp at hq
    simpa [hqp] using h.party q (by simp [hnone])
  · intro q hq
    obtain rfl : p = q := by simpa using hq
    refine ⟨∅, ?_, hsleep.woken rfl fun q c hq => ?_⟩
    · simpa [HeldAt] using hpc.1 s.data hinv hpc.2
    · rcases eq_or_ne q p with rfl | hqp
      · simp [Place.waitsOn] at hq
      · simpa [hqp] using hq
  · intro hq
    simp at hq

theorem Safe.giveLock (hs : s.give p (some ()) y = some s')
    (htable : Place.hasTable y = Place.hasTable x)
    (hgive : ∀ owed, A.HeldAt p s.data owed x → A.Rested s.data owed ∧ A.FreeAt p s.data y ∧
      ∀ c, Place.waitsOn c y = true → A.wait c s.data) : A.Safe s' := by
  obtain ⟨hhas, rfl⟩ := give_eq_some.1 hs
  obtain ⟨owed, hat, hsleep⟩ := h.holder p hhas
  obtain ⟨⟨hinv, howed⟩, hfree, hown⟩ := hgive owed (hx ▸ hat)
  constructor
  · simpa using h.table_same hx htable
  · intro q _
    rcases eq_or_ne q p with rfl | hqp
    · simpa using hfree
    · simpa [hqp] using h.party q (by simp [hhas, hqp.symm])
  · intro q hq
    simp at hq
  · intro _
    refine ⟨hinv, fun q c hq _ => ?_⟩
    rcases eq_or_ne q p with rfl | hqp
    · exact hown c (by simpa using hq)
    · -- a sleeper that is owed a wakeup has a reason to sleep again
      by_cases hc : c ∈ owed
      · exact howed c hc
      · exact hsleep q c (by simpa [hqp] using hq) hc

end

omit h in
omit [DecidableEq Ch] [DecidableEq P] in
theorem FreeAt.mono {d d' : σ} (h : A.FreeAt p d x) (hown : ∀ pc, A.own p pc d → A.own p pc d') :
    A.FreeAt p d' x := by
  cases x with
  | leaving c l pc => exact h.elim
  | on pc | back l pc | waking c pc | ending pc | killing t pc => exact ⟨h.1, hown pc h.2⟩
  | falling c l pc | asleep c l pc | ready l pc | resumed l pc => exact ⟨h.1, h.2.1, hown pc h.2.2⟩

theorem Safe.work {pc next : Pc} (hx : s.place p = .on pc) {d : σ} {new : Set Ch}
    (hfree : ¬ A.free p pc) (hnew : ∀ c, c ∉ new → A.wait c s.data → A.wait c d)
    (hheld : ∀ owed, A.held p pc s.data owed → A.held p next d (owed ∪ new) ∧
      ∀ q ≠ p, ∀ pc, A.own q pc s.data → A.own q pc d) :
    A.Safe ((s.setData d).move p (.on next)) := by
  have hhas : s.lock (some ()) = some p := by
    by_contra hno
    have := h.party p hno
    rw [hx] at this
    exact hfree this.1
  obtain ⟨owed, hat, hsleep⟩ := h.holder p hhas
  rw [hx] at hat
  obtain ⟨hnext, hown⟩ := hheld owed hat
  constructor
  · simpa using h.table_same hx (y := .on next) rfl
  · intro q hq
    have hqp : q ≠ p := by
      rintro rfl
      exact hq hhas
    simpa [hqp] using (h.party q hq).mono (hown q hqp)
  · intro q hq
    obtain rfl : p = q := by simpa [hhas] using hq
    refine ⟨owed ∪ new, ?_, fun q c hq hc => ?_⟩
    · simpa [HeldAt] using hnext
    · rw [Set.mem_union, not_or] at hc
      have hqp : q ≠ p := by
        rintro rfl
        simp [Place.waitsOn] at hq
      exact hnew c hc.2 (hsleep q c (by simpa [hqp] using hq) hc.1)
  · intro hq
    simp [hhas] at hq

variable {code : P → Pc → Instr Pc Unit Ch P σ} {entry : P → Pc → Pc → Bool}
  {allow : Pc → σ → Bool → Prop}

variable {pc : Pc}

theorem Safe.free_or_held (hx : s.place p = .on pc) :
    (A.free p pc ∧ A.own p pc s.data) ∨ ∃ owed, A.held p pc s.data owed := by
  by_cases hhas : s.lock (some ()) = some p
  · obtain ⟨owed, hat, -⟩ := h.holder p hhas
    rw [hx] at hat
    exact .inr ⟨owed, hat⟩
  · have hat := h.party p hhas
    rw [hx] at hat
    exact .inl hat

omit [DecidableEq P] in
theorem Safe.always {J : σ → Prop} (hinv : ∀ d, A.inv d → J d)
    (hheld : ∀ p pc d owed, A.held p pc d owed → J d) : J s.data := by
  cases hhas : s.lock (some ()) with
  | none => exact hinv _ (h.rest hhas).1
  | some p =>
    obtain ⟨owed, hat, -⟩ := h.holder p hhas
    cases hx : s.place p <;> rw [hx] at hat
    case on | ending | waking => exact hheld _ _ _ _ hat
    case leaving => exact hinv _ hat.1.1
    all_goals exact hat.elim

theorem Safe.own (hheld : ∀ p pc d owed, A.held p pc d owed → A.own p pc d) (p : P) :
    A.own p (Place.pc (s.place p)) s.data := by
  by_cases hhas : s.lock (some ()) = some p
  · obtain ⟨owed, hat, -⟩ := h.holder p hhas
    cases hx : s.place p <;> rw [hx] at hat
    case on | ending | waking => exact hheld _ _ _ _ hat
    case leaving => exact hat.2.2.2
    all_goals exact hat.elim
  · have hat := h.party p hhas
    cases hx : s.place p <;> rw [hx] at hat
    case leaving => exact hat.elim
    case on | ending | waking | killing | back => exact hat.2
    all_goals exact hat.2.2

/-- **An instruction** keeps the invariant. -/
theorem Safe.exec (hA : A.Valid code entry allow) (hx : s.place p = .on pc)
    (hallow : ∀ f, code p pc = .test f → allow pc s.data (s.killed p))
    (hs : s.exec p (code p pc) = some s') : A.Safe s' := by
  have hfree : A.free p pc → A.FreeStep p pc (code p pc) := hA.free
  have hheld : ∀ {d owed}, A.held p pc d owed → A.HeldStep (allow pc) p d owed (code p pc) :=
    hA.held
  rcases hi : code p pc with ⟨_ | ⟨⟩, next⟩ | ⟨_ | ⟨⟩, next⟩ | f | f |
      ⟨c, _ | ⟨⟩, next⟩ | ⟨c, next⟩ |
    ⟨t, next⟩ | _
  all_goals rw [hi] at hs hfree hheld
  case acquire.some =>
    refine h.takeLock hx hs rfl fun hat => ?_
    obtain ⟨hresumes, hown⟩ := hfree hat.1
    exact ⟨hresumes, hown _ hat.2⟩
  case release.some =>
    refine h.giveLock hx hs rfl fun owed hat => ?_
    obtain ⟨hrest, hnext⟩ := hheld hat
    exact ⟨hrest, hnext, fun c hc => by cases hc⟩
  case act =>
    cases hs
    refine h.work hx hfree (fun c hc hwait => ?_) fun owed hat => hheld hat
    by_contra hno
    exact hc ⟨hwait, hno⟩
  case test =>
    cases hs
    show A.Safe ((s.setData s.data).move p (.on (f s.data (s.killed p))))
    refine h.work hx hfree (fun c (_ : c ∉ (∅ : Set Ch)) hwait => hwait) fun owed hat => ?_
    rw [Set.union_empty]
    exact ⟨hheld hat _ (hallow f hi), fun _ _ _ hown => hown⟩
  case sleep.some =>
    refine h.takeTable hx hs rfl (fun c hc => by cases hc) (fun hat => (hfree hat.1).elim) ?_
    exact fun owed hat => hheld hat
  case wakeup =>
    refine h.takeTable hx hs rfl (fun c hc => by cases hc) (fun hat => ?_) fun owed hat => hheld hat
    obtain ⟨hnext, hown⟩ := hfree hat.1
    exact ⟨hnext, hown _ hat.2⟩
  case kill =>
    refine h.takeTable hx hs rfl (fun c hc => by cases hc) (fun hat => ?_)
      fun owed hat => (hheld hat).elim
    obtain ⟨hnext, hown⟩ := hfree hat.1
    exact ⟨hnext, hown _ hat.2⟩
  case halt => cases hs
  -- the outline has no rule for instructions on the table
  all_goals
    rcases h.free_or_held hx with hf | ⟨owed, hat⟩
    · exact (hfree hf.1).elim
    · exact (hheld hat).elim

/-- **The sleepers on `c` are woken** by a party that has the table. -/
theorem Safe.wake {c : Ch} (hx : s.place p = .waking c pc) :
    A.Safe ((s.wake c).move p (.ending pc)) := by
  have hself : ((s.wake c).move p (.ending pc)).place p = .ending pc := by simp
  have hother : ∀ q ≠ p, ((s.wake c).move p (.ending pc)).place q = Place.woken c (s.place q) := by
    intro q hq
    simp [hq]
  have htable : ∀ q, s.lock none = some q ↔
      Place.hasTable (((s.wake c).move p (.ending pc)).place q) = true := by
    intro q
    rw [h.table q]
    by_cases hq : q = p
    · subst hq
      rw [hself, hx]
      exact Iff.rfl
    · rw [hother q hq, (Place.woken_woken c _).hasTable]
  refine h.shift rfl rfl htable (fun q hq => hother q hq ▸ Place.woken_woken c _) ?_ ?_ ?_
  · rw [hself]
    exact fun c hc => by cases hc
  · rw [hself, hx]
    exact fun hf => hf
  · intro owed hat hsleep
    rw [hx] at hat
    rw [hself]
    refine ⟨owed \ {c}, hat, fun q c' hq hc' => ?_⟩
    have hqp : q ≠ p := by
      rintro rfl
      rw [hself] at hq
      cases hq
    rw [hother q hqp] at hq
    have hold := (Place.woken_woken c (s.place q)).waitsOn hq
    by_cases hc : c' = c
    · -- nobody sleeps on `c` any more, and nobody else has the table to fall asleep on it
      subst hc
      exfalso
      have hnot : Place.hasTable (s.place q) = false := by
        by_contra htrue
        have hq' := (h.table q).2 (by simpa using htrue)
        have hp' := (h.table p).2 (by rw [hx]; rfl)
        rw [hp'] at hq'
        exact hqp (Option.some.inj hq').symm
      rcases hplace : s.place q with _ | _ | ⟨c'', l, pc'⟩ | ⟨c'', l, pc'⟩ | _ | _ | _ | _ | _ | _
      all_goals rw [hplace] at hold hnot hq
      case falling => cases hnot
      case asleep =>
        obtain rfl : c'' = c' := of_decide_eq_true hold
        rw [Place.woken, if_pos rfl] at hq
        cases hq
      all_goals cases hold
    · exact hsleep q c' hold fun hmem => hc' ⟨hmem, hc⟩

/-- **A party is killed** by one that has the table. -/
theorem Safe.strike {t : P} (hx : s.place p = .killing t pc) :
    A.Safe ((s.strike t).move p (.ending pc)) := by
  have hself : ((s.strike t).move p (.ending pc)).place p = .ending pc := by simp
  refine h.shift rfl rfl (fun q => ?_) (fun q => s.strike_other _) ?_ ?_ ?_
  · show s.lock none = some q ↔ _
    rw [h.table q]
    rcases eq_or_ne q p with rfl | hq
    · rw [hself, hx]
      exact Iff.rfl
    · rw [(s.strike_other _ hq).hasTable]
  · rw [hself]
    exact fun c hc => by cases hc
  · rw [hself, hx]
    exact fun hf => hf
  · intro owed hat _
    rw [hx] at hat
    exact hat.elim

theorem Safe.turn (hA : A.Valid code entry allow)
    (hallow : ∀ pc ∈ s.testing code p, allow pc s.data (s.killed p))
    (hs : s.turn code p = some s') : A.Safe s' := by
  unfold Monitor.turn at hs
  rcases hx : s.place p with pc | ⟨c, l, pc⟩ | ⟨c, l, pc⟩ | ⟨c, l, pc⟩ | ⟨l, pc⟩ |
      ⟨_ | l, pc⟩ | ⟨l, pc⟩ |
    ⟨c, pc⟩ | pc | ⟨t, pc⟩
  all_goals rw [hx] at hs
  case on =>
    refine h.exec hA hx (fun f hf => hallow pc ?_) hs
    simp [testing, hx, hf]
  case leaving =>
    refine h.giveLock hx hs rfl fun owed hat => ?_
    obtain ⟨hrest, hwait, hresumes⟩ := hat
    refine ⟨hrest, ⟨rfl, hresumes⟩, fun c' hc' => ?_⟩
    obtain rfl : c = c' := of_decide_eq_true hc'
    exact hwait
  case falling =>
    exact h.giveTable hx hs rfl (fun c hc => hc) (fun hf => hf) fun owed hat => hat
  case asleep => cases hs
  case ready =>
    exact h.takeTable hx hs rfl (fun c hc => by cases hc) (fun hf => hf) fun owed hat => hat
  case resumed.none =>
    -- nobody sleeps with the table as the lock
    exfalso
    have hno : s.lock (some ()) ≠ some p := by
      intro hhas
      obtain ⟨owed, hat, -⟩ := h.holder p hhas
      rw [hx] at hat
      exact hat
    have hat := h.party p hno
    rw [hx] at hat
    cases hat.1
  case resumed.some =>
    exact h.giveTable hx hs rfl (fun c hc => by cases hc) (fun hf => hf.2) fun owed hat => hat.elim
  case back => exact h.takeLock hx hs rfl fun hf => hf
  case waking =>
    cases hs
    exact h.wake hx
  case ending =>
    exact h.giveTable hx hs rfl (fun c hc => by cases hc) (fun hf => hf) fun owed hat => hat
  case killing =>
    cases hs
    exact h.strike hx

theorem Safe.start (hA : A.Valid code entry allow)
    (hs : s.step code entry (.start p pc) = some s') : A.Safe s' := by
  obtain ⟨old, hx, hhalt, hentry, rfl⟩ := start_eq_some hs
  have hmove := h.relocate hx (h.table_same hx (y := .on pc) rfl) (fun c hc => hc)
    (fun hat => ⟨(hA.entry hentry hat.1).1, (hA.entry hentry hat.1).2 _ hat.2⟩) fun owed hat => by
      have := hA.held hat
      rw [hhalt] at this
      exact this.elim
  rwa [show s.setLock none (s.lock none) = s by simp [Monitor.setLock]] at hmove

end

omit [DecidableEq P] in
theorem safe_of_idle (hlock : ∀ l, s.lock l = none)
    (hplace : ∀ p, ∃ pc, s.place p = .on pc ∧ A.free p pc ∧ A.own p pc s.data)
    (hinv : A.inv s.data) : A.Safe s := by
  constructor
  · intro p
    obtain ⟨pc, hx, -⟩ := hplace p
    simp [hlock, hx, Place.hasTable]
  · intro p _
    obtain ⟨pc, hx, hpc⟩ := hplace p
    rw [hx]
    exact hpc
  · intro p hp
    simp [hlock] at hp
  · intro _
    refine ⟨hinv, fun q c hq _ => ?_⟩
    obtain ⟨pc, hx, -⟩ := hplace q
    rw [hx] at hq
    cases hq

/-- **The invariant of a valid outline holds in every run** that keeps to `allow`. -/
theorem safe {s0 : Monitor Pc Unit Ch P σ} (hA : A.Valid code entry allow) (h0 : A.Safe s0)
    (h : Run (Monitor.step code entry) (Monitor.Allowed code allow) s0 s) : A.Safe s := by
  refine h.invariant A.Safe h0 ?_
  intro s e s' hsafe hallow hs
  cases e with
  | start p pc => exact hsafe.start hA hs
  | turn p => exact hsafe.turn hA hallow hs

end

end Outline

end Foundation
