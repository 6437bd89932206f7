import Xv6.Foundation.Monitor

/-! # Sleeping with an eye on the flag

A party of a monitor that may be killed should not be asleep once it is: it tests its flag before it
sleeps, and whoever kills it wakes it. The test and the sleep are different steps, and only the lock
of the table keeps a kill from falling between them.

Two marks on the program points say what a program does about that: `tested`, where the flag was
found down and nothing has happened since, and `keeps`, where the party has the table.

* **`Marks.ok`** — if every sleep is at a `tested` point, and no kill strikes a party at a `tested`
  point that does not keep the table, then nobody who sleeps is killed. -/

namespace Foundation

/-! ## Programs inside programs -/

section

variable {Pc Pc' Lk Lk' Ch Ch' P σ σ' : Type}

/-- An instruction of a program that is a part of a larger one. -/
def Instr.lift (pc : Pc → Pc') (lk : Lk → Lk') (ch : Ch → Ch') (get : σ' → σ) (set : σ' → σ → σ') :
    Instr Pc Lk Ch P σ → Instr Pc' Lk' Ch' P σ'
  | .acquire l next => .acquire (l.map lk) (pc next)
  | .release l next => .release (l.map lk) (pc next)
  | .act f => .act fun d => (pc (f (get d)).1, set d (f (get d)).2)
  | .test f => .test fun d b => pc (f (get d) b)
  | .sleep c l next => .sleep (ch c) (l.map lk) (pc next)
  | .wakeup c next => .wakeup (ch c) (pc next)
  | .kill t next => .kill t (pc next)
  | .halt => .halt

end

/-! ## Marks -/

/-- Marks on program points. -/
structure Marks (Pc : Type) where
  tested : Pc → Bool
  keeps : Pc → Bool

namespace Marks

variable {Pc Pc' Lk Lk' Ch Ch' P σ σ' : Type} (m : Marks Pc)

/-- **What the marks ask of an instruction.** -/
def Fits (pc : Pc) : Instr Pc Lk Ch P σ → Prop
  | .acquire none next => m.tested next = false
  | .acquire (some _) next => m.tested next = false ∧ (m.keeps next = true → m.keeps pc = true)
  | .release none next => m.tested next = false ∧ m.keeps next = false
  | .release (some _) next => m.tested next = false ∧ (m.keeps next = true → m.keeps pc = true)
  | .act f => ∀ d, (m.tested (f d).1 = true → m.tested pc = true) ∧
      (m.keeps (f d).1 = true → m.keeps pc = true)
  | .test f => ∀ d b, (m.tested (f d b) = true → m.tested pc = true ∨ b = false) ∧
      (m.keeps (f d b) = true → m.keeps pc = true)
  | .sleep _ none next => m.tested pc = true ∧ m.keeps pc = true ∧ m.tested next = false
  | .sleep _ (some _) next => m.tested pc = true ∧ m.tested next = false ∧ m.keeps next = false
  | .wakeup _ next => (m.tested next = true → m.tested pc = true) ∧ m.keeps next = false
  | .kill _ next => m.tested next = false ∧ m.keeps next = false
  | .halt => True

variable {m} in
theorem fits_act {pc : Pc} {f : σ → Pc × σ} (htested : ∀ d, m.tested (f d).1 = false)
    (hkeeps : ∀ d, m.keeps (f d).1 = true → m.keeps pc = true) :
    m.Fits pc (.act f : Instr Pc Lk Ch P σ) := by
  refine fun d => ⟨fun ht => ?_, hkeeps d⟩
  rw [htested d] at ht
  cases ht

variable {m} in
theorem fits_test {pc : Pc} {f : σ → Bool → Pc} (htested : ∀ d, m.tested (f d true) = false)
    (hkeeps : ∀ d b, m.keeps (f d b) = true → m.keeps pc = true) :
    m.Fits pc (.test f : Instr Pc Lk Ch P σ) := by
  refine fun d b => ⟨fun ht => .inr ?_, hkeeps d b⟩
  cases b with
  | false => rfl
  | true =>
    rw [htested d] at ht
    cases ht

/-- The marks of a part of a program. -/
def comap (pc : Pc' → Pc) : Marks Pc' := ⟨m.tested ∘ pc, m.keeps ∘ pc⟩

theorem fits_lift {f : Pc' → Pc} {lk : Lk' → Lk} {ch : Ch' → Ch} {get : σ → σ'} {set : σ → σ' → σ}
    {pc : Pc'} {i : Instr Pc' Lk' Ch' P σ'} (h : (m.comap f).Fits pc i) :
    m.Fits (f pc) (i.lift f lk ch get set) := by
  cases i with
  | acquire l next | release l next | sleep c l next => cases l <;> exact h
  | act g => exact fun d => h (get d)
  | test g => exact fun d b => h (get d) b
  | wakeup c next | kill t next => exact h
  | halt => trivial

/-- A program that is marked right. -/
structure Valid (code : P → Pc → Instr Pc Lk Ch P σ) (entry : P → Pc → Pc → Bool) : Prop where
  code : ∀ p pc, m.Fits pc (code p pc)
  entry : ∀ {p old pc}, entry p old pc = true →
    m.tested pc = false ∧ (m.keeps pc = true → m.keeps old = true)

/-! ## The invariant -/

/-- Whether the party has the table. -/
def hasTable : Place Pc Lk Ch P → Bool
  | .on pc => m.keeps pc
  | x => Monitor.Place.hasTable x

/-- Whether the flag of the party is down. -/
def quiet : Place Pc Lk Ch P → Bool
  | .on pc | .waking _ pc | .ending pc => m.tested pc
  | .leaving _ _ _ | .falling _ _ _ | .asleep _ _ _ => true
  | _ => false

/-- What a place says of the point to which the party comes back. -/
def Sits : Place Pc Lk Ch P → Prop
  | .on _ => True
  | .leaving _ _ pc | .back _ pc | .killing _ pc => m.tested pc = false ∧ m.keeps pc = false
  | .falling _ l pc | .asleep _ l pc | .ready l pc | .resumed l pc =>
    m.tested pc = false ∧ (l.isSome = true → m.keeps pc = false)
  | .waking _ pc | .ending pc => m.keeps pc = false

/-- **The marks are right**: a party at a place that has the table holds its lock, a party at a
place past the test has not been killed, and a party that is to come back comes back to a point
before the test. -/
structure Ok (s : Monitor Pc Lk Ch P σ) : Prop where
  table : ∀ p, m.hasTable (s.place p) = true → s.lock none = some p
  killed : ∀ p, m.quiet (s.place p) = true → s.killed p = false
  sits : ∀ p, m.Sits (s.place p)

/-- A kill that strikes a party here falls between the test of the flag and the sleep. -/
def exposed : Place Pc Lk Ch P → Bool
  | .on pc => m.tested pc && !m.keeps pc
  | _ => false

/-- Whom a party is about to strike. -/
def target : Place Pc Lk Ch P → Option P
  | .killing t _ => some t
  | _ => none

/-- **The rule for runs**: no kill strikes an exposed party. -/
def Spared (s : Monitor Pc Lk Ch P σ) : MonitorEvent Pc P → Prop
  | .turn p => ∀ t ∈ target (s.place p), m.exposed (s.place t) = false
  | .start _ _ => True

instance (s : Monitor Pc Lk Ch P σ) : ∀ e, Decidable (m.Spared s e)
  | .turn p => inferInstanceAs (Decidable (∀ t ∈ target (s.place p), m.exposed (s.place t) = false))
  | .start _ _ => .isTrue trivial

variable {m} [DecidableEq Lk] [DecidableEq Ch] [DecidableEq P]
  {s s' : Monitor Pc Lk Ch P σ} {p : P} {x y : Place Pc Lk Ch P}

open Monitor

omit [DecidableEq Lk] [DecidableEq Ch] [DecidableEq P] in
theorem woken (h : Place.Woken x y) :
    (m.hasTable y = true → m.hasTable x = true) ∧ (m.quiet y = true → m.quiet x = true) ∧
      (m.Sits x → m.Sits y) := by
  rcases h with rfl | ⟨c, l, pc, rfl, rfl⟩
  · exact ⟨fun h => h, fun h => h, fun h => h⟩
  · exact ⟨fun h => h, fun _ => rfl, fun h => h⟩

section

variable (h : m.Ok s)

include h

omit [DecidableEq Lk] [DecidableEq Ch] [DecidableEq P] in
/-- **One party moves**, and others may be woken. -/
theorem Ok.shift (hkilled : ∀ q, s'.killed q = s.killed q)
    (hlock : ∀ q ≠ p, s.lock none = some q → s'.lock none = some q)
    (hothers : ∀ q ≠ p, Place.Woken (s.place q) (s'.place q))
    (htable : m.hasTable (s'.place p) = true → s'.lock none = some p)
    (hquiet : m.quiet (s'.place p) = true → s.killed p = false) (hsits : m.Sits (s'.place p)) :
    m.Ok s' := by
  constructor
  · intro q hq
    by_cases hqp : q = p
    · subst hqp
      exact htable hq
    · exact hlock q hqp (h.table q ((woken (hothers q hqp)).1 hq))
  · intro q hq
    rw [hkilled]
    by_cases hqp : q = p
    · subst hqp
      exact hquiet hq
    · exact h.killed q ((woken (hothers q hqp)).2.1 hq)
  · intro q
    by_cases hqp : q = p
    · subst hqp
      exact hsits
    · exact (woken (hothers q hqp)).2.2 (h.sits q)

omit [DecidableEq Lk] [DecidableEq Ch] in
theorem Ok.move {d : σ} {l : Option Lk → Option P} (hl : l none = s.lock none)
    (htable : m.hasTable y = true → s.lock none = some p)
    (hquiet : m.quiet y = true → s.killed p = false) (hsits : m.Sits y) :
    m.Ok (Monitor.move { s with data := d, lock := l } p y) := by
  refine h.shift (p := p) (fun _ => rfl) (fun q _ hq => hl.trans hq) (fun q hq => .inl ?_) ?_ ?_ ?_
  · simp [hq]
  · simpa [hl] using htable
  · simpa using hquiet
  · simpa using hsits

omit [DecidableEq Ch] in
theorem Ok.take {l : Option Lk} (hs : s.take p l y = some s')
    (htable : l ≠ none → m.hasTable y = true → s.lock none = some p)
    (hquiet : m.quiet y = true → s.killed p = false) (hsits : m.Sits y) : m.Ok s' := by
  obtain ⟨hfree, rfl⟩ := take_eq_some.1 hs
  cases l with
  | some l => exact h.move (by simp) (htable (by simp)) hquiet hsits
  | none =>
    refine h.shift (p := p) (fun _ => rfl) (fun q _ hq => ?_) (fun q hq => .inl ?_) ?_ ?_ ?_
    · rw [hfree] at hq
      cases hq
    · simp [hq]
    · simp
    · simpa using hquiet
    · simpa using hsits

omit [DecidableEq Ch] in
theorem Ok.give {l : Option Lk} (hs : s.give p l y = some s')
    (htable : m.hasTable y = true → l ≠ none ∧ s.lock none = some p)
    (hquiet : m.quiet y = true → s.killed p = false) (hsits : m.Sits y) : m.Ok s' := by
  obtain ⟨hhas, rfl⟩ := give_eq_some.1 hs
  cases l with
  | some l => exact h.move (by simp) (fun hy => (htable hy).2) hquiet hsits
  | none =>
    refine h.shift (p := p) (fun _ => rfl) (fun q hq hq' => ?_) (fun q hq => .inl ?_) ?_ ?_ ?_
    · rw [hhas] at hq'
      exact absurd (Option.some.inj hq').symm hq
    · simp [hq]
    · intro hy
      exact absurd rfl (htable (by simpa using hy)).1
    · simpa using hquiet
    · simpa using hsits

omit [DecidableEq Ch] in
/-- **An instruction** keeps the invariant. -/
theorem Ok.exec {pc : Pc} (hx : s.place p = .on pc) {i : Instr Pc Lk Ch P σ}
    (hi : m.Fits pc i) (hs : s.exec p i = some s') : m.Ok s' := by
  have htable : m.keeps pc = true → s.lock none = some p :=
    fun hk => h.table p (by rw [hx]; exact hk)
  have hquiet : m.tested pc = true → s.killed p = false :=
    fun ht => h.killed p (by rw [hx]; exact ht)
  -- a point that is not marked as tested has nothing to say of the flag
  have hdown : ∀ {next : Pc}, m.tested next = false → m.tested next = true →
      s.killed p = false := by
    intro next hno hyes
    rw [hno] at hyes
    cases hyes
  cases i with
  | acquire l next =>
    cases l with
    | none => exact h.take hs (fun hne => absurd rfl hne) (hdown hi) trivial
    | some l => exact h.take hs (fun _ hk => htable (hi.2 hk)) (hdown hi.1) trivial
  | release l next =>
    cases l with
    | none =>
      refine h.give hs (fun hk => ?_) (hdown hi.1) trivial
      rw [hasTable, hi.2] at hk
      cases hk
    | some l => exact h.give hs (fun hk => ⟨by simp, htable (hi.2 hk)⟩) (hdown hi.1) trivial
  | act f =>
    cases hs
    exact h.move rfl (fun hk => htable ((hi s.data).2 hk)) (fun ht => hquiet ((hi s.data).1 ht))
      trivial
  | test f =>
    cases hs
    refine h.move rfl (fun hk => htable ((hi s.data _).2 hk)) (fun ht => ?_) trivial
    exact ((hi s.data _).1 ht).elim hquiet fun hb => hb
  | sleep c l next =>
    cases l with
    | none =>
      obtain ⟨ht, hk, hnext⟩ := hi
      cases hs
      exact h.move rfl (fun _ => htable hk) (fun _ => hquiet ht) ⟨hnext, fun hl => by cases hl⟩
    | some l =>
      obtain ⟨ht, hnext⟩ := hi
      exact h.take hs (fun hne => absurd rfl hne) (fun _ => hquiet ht) hnext
  | wakeup c next =>
    exact h.take hs (fun hne => absurd rfl hne) (fun ht => hquiet (hi.1 ht)) hi.2
  | kill t next => exact h.take hs (fun hne => absurd rfl hne) (fun ht => by cases ht) hi
  | halt => cases hs

omit [DecidableEq Lk] [DecidableEq Ch] in
/-- **A kill** of a party that is not exposed. -/
theorem Ok.strike {t : P} {pc : Pc} (hx : s.place p = .killing t pc)
    (hspared : m.exposed (s.place t) = false) : m.Ok ((s.strike t).move p (.ending pc)) := by
  have hp : s.lock none = some p := h.table p (by rw [hx]; rfl)
  obtain ⟨htested, hkeeps⟩ : m.tested pc = false ∧ m.keeps pc = false := by
    have := h.sits p
    rwa [hx] at this
  have hself : ((s.strike t).move p (.ending pc)).place p = .ending pc := by simp
  have hother : ∀ {q}, q ≠ p → _ := fun hq => woken (m := m)
    (s.strike_other (t := t) (.ending pc) hq)
  constructor
  · intro q hq
    rcases eq_or_ne q p with rfl | hqp
    · exact hp
    · exact h.table q ((hother hqp).1 hq)
  · intro q hq
    rcases eq_or_ne q p with rfl | hqp
    · rw [hself, quiet, htested] at hq
      cases hq
    rcases eq_or_ne q t with rfl | hqt
    · -- the party that is struck was not quiet, or has been roused
      exfalso
      have hnot : s.lock none ≠ some q := by
        rw [hp]
        exact fun heq => hqp (Option.some.inj heq).symm
      have hplace : ((s.strike q).move p (.ending pc)).place q = Place.roused (s.place q) := by
        simp [hqp]
      rw [hplace] at hq
      rcases hq' : s.place q with pc' | ⟨c, l, pc'⟩ | ⟨c, l, pc'⟩ | ⟨c, l, pc'⟩ |
          ⟨l, pc'⟩ | ⟨l, pc'⟩ |
        ⟨l, pc'⟩ | ⟨c, pc'⟩ | pc' | ⟨u, pc'⟩
      all_goals rw [hq'] at hq
      case on =>
        have htested : m.tested pc' = true := hq
        rw [hq', exposed, htested] at hspared
        have hkeeps : m.keeps pc' = true := by simpa using hspared
        exact hnot (h.table q (by rw [hq']; exact hkeeps))
      case leaving | falling | waking | ending => exact hnot (h.table q (by rw [hq']; rfl))
      all_goals cases hq
    · have hkilled : ((s.strike t).move p (.ending pc)).killed q = s.killed q := by simp [hqt]
      rw [hkilled]
      exact h.killed q ((hother hqp).2.1 hq)
  · intro q
    rcases eq_or_ne q p with rfl | hqp
    · rw [hself]
      exact hkeeps
    · exact (hother hqp).2.2 (h.sits q)

variable {code : P → Pc → Instr Pc Lk Ch P σ} {entry : P → Pc → Pc → Bool}

theorem Ok.turn (hm : m.Valid code entry) (hspared : m.Spared s (.turn p))
    (hs : s.turn code p = some s') : m.Ok s' := by
  have htable := h.table p
  have hquiet := h.killed p
  have hsits := h.sits p
  unfold Monitor.turn at hs
  rcases hx : s.place p with pc | ⟨c, l, pc⟩ | ⟨c, l, pc⟩ | ⟨c, l, pc⟩ | ⟨l, pc⟩ |
      ⟨_ | l, pc⟩ | ⟨l, pc⟩ |
    ⟨c, pc⟩ | pc | ⟨t, pc⟩
  all_goals rw [hx] at hs htable hquiet hsits
  case on => exact h.exec hx (hm.code p pc) hs
  case leaving =>
    exact h.give hs (fun _ => ⟨by simp, htable rfl⟩) (fun _ => hquiet rfl)
      ⟨hsits.1, fun _ => hsits.2⟩
  case falling => exact h.give hs (fun hy => by cases hy) (fun _ => hquiet rfl) hsits
  case asleep => cases hs
  case ready => exact h.take hs (fun hne => absurd rfl hne) (fun hy => by cases hy) hsits
  case resumed.none =>
    cases hs
    refine h.move rfl (fun _ => htable rfl) (fun hy => ?_) trivial
    rw [quiet, hsits.1] at hy
    cases hy
  case resumed.some =>
    exact h.give hs (fun hy => by cases hy) (fun hy => by cases hy) ⟨hsits.1, hsits.2 rfl⟩
  case back =>
    refine h.take hs (fun _ hy => ?_) (fun hy => ?_) trivial
    · rw [hasTable, hsits.2] at hy
      cases hy
    · rw [quiet, hsits.1] at hy
      cases hy
  case waking =>
    cases hs
    refine h.shift (p := p) (fun _ => rfl) (fun _ _ hq => hq) (fun q hq => ?_) ?_ ?_ ?_
    · simpa [hq] using Place.woken_woken c (s.place q)
    · exact fun _ => htable rfl
    · simpa [quiet] using hquiet
    · simpa [Sits] using hsits
  case ending =>
    refine h.give hs (fun hy => ?_) hquiet trivial
    rw [hasTable, hsits] at hy
    cases hy
  case killing =>
    cases hs
    refine h.strike hx (hspared t ?_)
    rw [hx]
    rfl

theorem Ok.start (hm : m.Valid code entry) {pc : Pc}
    (hs : s.step code entry (.start p pc) = some s') : m.Ok s' := by
  have htable := h.table p
  obtain ⟨old, hx, -, hentry, rfl⟩ := start_eq_some hs
  rw [hx] at htable
  obtain ⟨htested, hkeeps⟩ := hm.entry hentry
  refine h.move rfl (fun hk => htable (hkeeps hk)) (fun ht => ?_) trivial
  rw [quiet, htested] at ht
  cases ht

end

/-- **Nobody who sleeps is killed**, in runs in which no kill strikes an exposed party. -/
theorem ok {s0 : Monitor Pc Lk Ch P σ} (hm : m.Valid code entry) (h0 : m.Ok s0)
    (h : Run (Monitor.step code entry) m.Spared s0 s) : m.Ok s := by
  refine h.invariant m.Ok h0 fun s e s' hok hspared hs => ?_
  cases e with
  | start p pc => exact hok.start hm hs
  | turn p => exact hok.turn hm hspared hs

end Marks

end Foundation
