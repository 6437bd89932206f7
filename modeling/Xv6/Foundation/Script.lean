import Mathlib.Data.Fintype.Defs
import Xv6.Foundation.Fallible
import Xv6.Foundation.Runs

/-! # Programs that take locks

A script is a program whose steps are actions on a state `σ`, and operations on locks that a party
keeps over several steps. It is run in two ways: by one party alone (`Script.run`), and by any
number of parties whose steps interleave (`Pool.step`).

A script is *orderly* if it never takes a lock that it has and, unless it is a `keeper`, takes no
lock while it has one. What a script does next may depend on the state, and others change the state
between any two steps. The `Terms` say what a party with some locks may count on then, and what its
own actions have to leave alone in return.

* **`Script.ends_run_bind`** — a script that runs alone is executed symbolically, part by part.
* **`Pool.not_deadlocked`** — parties with orderly scripts never wait in a circle, as long as there
  is one keeper at a time and the states are fit for those who have locks. -/

namespace Foundation

open Function

/-- A program over locks in `L` and actions on states `σ`. -/
inductive Script (L ε σ α : Type) : Type 1
  | done (a : α)
  | act {β : Type} (m : Fallible ε σ β) (k : β → Script L ε σ α)
  | acquire (l : L) (k : Script L ε σ α)
  | release (l : L) (k : Script L ε σ α)

/-- A state together with the parties that have the locks. -/
structure Locked (σ L P : Type) where
  state : σ
  lock : L → Option P

namespace Script

variable {L ε σ α β P : Type}

/-- One program after the other. -/
def bind : Script L ε σ α → (α → Script L ε σ β) → Script L ε σ β
  | done a, f => f a
  | act m k, f => act m fun b => (k b).bind f
  | acquire l k, f => acquire l (k.bind f)
  | release l k, f => release l (k.bind f)

instance : Monad (Script L ε σ) where
  pure := done
  bind := bind

/-! ## Alone -/

section

variable [DecidableEq L] [DecidableEq P]

/-- The lock `l` is taken; code that waits for it alone waits forever. -/
def take (stuck : ε) (p : P) (l : L) : Fallible ε (Locked σ L P) PUnit := do
  let s ← get
  stopIf (s.lock l ≠ none) stuck
  modify fun s => { s with lock := update s.lock l (some p) }

/-- The lock `l` is given back. -/
def give (stray : ε) (p : P) (l : L) : Fallible ε (Locked σ L P) PUnit := do
  let s ← get
  stopIf (s.lock l ≠ some p) stray
  modify fun s => { s with lock := update s.lock l none }

/-- **The script, run by `p` alone.** -/
def run (stuck stray : ε) (p : P) : Script L ε σ α → Fallible ε (Locked σ L P) α
  | done a => pure a
  | act m k => do
    let b ← zoom Locked.state (fun t s => { s with state := t }) m
    (k b).run stuck stray p
  | acquire l k => do
    take stuck p l
    k.run stuck stray p
  | release l k => do
    give stray p l
    k.run stuck stray p

variable {stuck stray : ε} {p : P} {s : Locked σ L P} {C : ε → Locked σ L P → Prop}

theorem ends_run_bind {x : Script L ε σ α} {f : α → Script L ε σ β} {Q : β → Locked σ L P → Prop} :
    Ends ((x >>= f).run stuck stray p) s Q C ↔
      Ends (x.run stuck stray p) s (fun a s' => Ends ((f a).run stuck stray p) s' Q C) C := by
  show Ends ((x.bind f).run stuck stray p) s Q C ↔ _
  induction x generalizing s with
  | done a => exact Iff.rfl
  | act m k ih | acquire l k ih | release l k ih => simp only [bind, run, ends_bind, ih]

end

end Script

/-! ## Orderly scripts -/

/-- **What parties with locks promise each other.** A party is a keeper or not, and has some
locks. -/
structure Terms (L σ : Type) where
  /-- What every action keeps. -/
  inv : σ → Prop
  /-- What the states have to be like while a party of some kind has a lock. -/
  fit : Bool → L → σ → Prop
  /-- What the states have to be like in any case. -/
  plain : σ → Prop
  /-- What a party counts on while others move. -/
  rely : Bool → List L → σ → σ → Prop
  /-- What an action of a party with these locks does. -/
  guar : List L → σ → σ → Prop
  refl : ∀ w H s, rely w H s s
  trans : ∀ {w H s t u}, rely w H s t → rely w H t u → rely w H s u
  guar_inv : ∀ {H s t}, guar H s t → inv t
  /-- Two parties that are not both keepers. -/
  guar_rely : ∀ {v w G H s t}, (∀ l ∈ H, l ∉ G) → ¬ (v = true ∧ w = true) → (∀ l ∈ G, fit v l s) →
    (∀ l ∈ H, fit w l s) → guar G s t → rely w H s t

namespace Terms

variable {L σ : Type} (T : Terms L σ)

/-- The state is as a party with the locks `H` may expect it to be. -/
structure Fits (w : Bool) (H : List L) (s : σ) : Prop where
  inv : T.inv s
  plain : T.plain s
  fit : ∀ l ∈ H, T.fit w l s

end Terms

namespace Script

variable {L ε σ α β : Type} [DecidableEq L]

/-- **The script is orderly** for a party that has the locks `H` in state `s`, and ends with `Q`. -/
def Orderly (T : Terms L σ) (w : Bool) (Q : α → List L → σ → Prop) :
    Script L ε σ α → List L → σ → Prop
  | done a, H, s => Q a H s
  | act m k, H, s => ∀ s', T.rely w H s s' → T.Fits w H s' → ∀ b t, Returns m s' b t →
    T.guar H s' t ∧ (k b).Orderly T w Q H t
  | acquire l k, H, s => l ∉ H ∧ (H ≠ [] → w = true) ∧
    ∀ s', T.rely w H s s' → k.Orderly T w Q (l :: H) s'
  | release l k, H, s => l ∈ H → ∀ s', T.rely w H s s' → k.Orderly T w Q (H.erase l) s'

variable {T : Terms L σ} {w : Bool} {H : List L} {s t : σ}

theorem orderly_bind {Q : β → List L → σ → Prop} {x : Script L ε σ α} {f : α → Script L ε σ β} :
    (x >>= f).Orderly T w Q H s ↔ x.Orderly T w (fun a H s => (f a).Orderly T w Q H s) H s := by
  show (x.bind f).Orderly T w Q H s ↔ _
  induction x generalizing H s with
  | done a => exact Iff.rfl
  | act m k ih =>
    exact forall₃_congr fun s' _ _ => forall₃_congr fun b t _ => and_congr_right fun _ => ih b
  | acquire l k ih =>
    exact and_congr_right fun _ => and_congr_right fun _ => forall₂_congr fun _ _ => ih
  | release l k ih => exact forall_congr' fun _ => forall₂_congr fun _ _ => ih

theorem Orderly.relied {Q : α → List L → Prop} {x : Script L ε σ α}
    (h : x.Orderly T w (fun a H _ => Q a H) H s) (hs : T.rely w H s t) :
    x.Orderly T w (fun a H _ => Q a H) H t := by
  cases x with
  | done a => exact h
  | act m k => exact fun s' hs' => h s' (T.trans hs hs')
  | acquire l k => exact ⟨h.1, h.2.1, fun s' hs' => h.2.2 s' (T.trans hs hs')⟩
  | release l k => exact fun hl s' hs' => h hl s' (T.trans hs hs')

end Script

/-! ## Interleavings -/

/-- A job of a party: whether it is a keeper, and what is left of its script. -/
structure Job (L ε σ α : Type) : Type 1 where
  keeper : Bool
  script : Script L ε σ α

/-- Parties and their jobs. -/
structure Pool (L ε σ P α : Type) : Type 1 extends Locked σ L P where
  job : P → Option (Job L ε σ α)

/-- What happens next: a party begins a job, or goes on with the one it has. -/
inductive PoolEvent (P C : Type)
  | start (p : P) (c : C)
  | turn (p : P)

namespace Pool

variable {L ε σ P C α : Type} [DecidableEq L] [DecidableEq P]

/-- Party `p` goes on. An action that stops is the end of the whole system, and so is the release of
a lock that `p` does not have. -/
def turn (s : Pool L ε σ P α) (p : P) : Option (Pool L ε σ P α) :=
  match s.job p with
  | none => none
  | some ⟨_, .done _⟩ => some { s with job := update s.job p none }
  | some ⟨w, .act m k⟩ =>
    match exec m s.state with
    | (.ok b, t) => some { s with state := t, job := update s.job p (some ⟨w, k b⟩) }
    | (.error _, _) => none
  | some ⟨w, .acquire l k⟩ =>
    if s.lock l = none then
      some { s with
        lock := update s.lock l (some p)
        job := update s.job p (some ⟨w, k⟩) }
    else none
  | some ⟨w, .release l k⟩ =>
    if s.lock l = some p then
      some { s with
        lock := update s.lock l none
        job := update s.job p (some ⟨w, k⟩) }
    else none

/-- **One step.** -/
def step (code : P → C → Job L ε σ α) (s : Pool L ε σ P α) : PoolEvent P C → Option (Pool L ε σ P α)
  | .start p c =>
    match s.job p with
    | none => some { s with job := update s.job p (some (code p c)) }
    | some _ => none
  | .turn p => s.turn p

/-- Nobody has a job or a lock. -/
structure Idle (s : Pool L ε σ P α) : Prop where
  job : ∀ p, s.job p = none
  lock : ∀ l, s.lock l = none

/-- The lock that `p` takes next. -/
def awaited (s : Pool L ε σ P α) (p : P) : Option L :=
  match s.job p with
  | some ⟨_, .acquire l _⟩ => some l
  | _ => none

/-- Party `p` waits for a lock that `q` has. -/
def WaitsFor (s : Pool L ε σ P α) (p q : P) : Prop := ∃ l ∈ s.awaited p, s.lock l = some q

instance (s : Pool L ε σ P α) (p q : P) : Decidable (s.WaitsFor p q) :=
  inferInstanceAs (Decidable (∃ l ∈ s.awaited p, s.lock l = some q))

/-- Some parties wait in a circle. -/
def Deadlocked (s : Pool L ε σ P α) : Prop := ∃ p, Relation.TransGen s.WaitsFor p p

/-- **The rule**: the jobs that begin are `allowed`, there is one keeper at a time, and the states
are fit for those who have locks. -/
def Rule (T : Terms L σ) (code : P → C → Job L ε σ α) (allowed : C → Prop) (s : Pool L ε σ P α) :
    PoolEvent P C → Prop
  | .start p c =>
    allowed c ∧ ((code p c).keeper = true → ∀ q, ∀ j ∈ s.job q, j.keeper = false)
  | .turn _ => T.plain s.state ∧
    ∀ l p, s.lock l = some p → ∀ j ∈ s.job p, T.fit j.keeper l s.state

/-- The condition at the end of a job: no lock is left. -/
abbrev NoLocks : α → List L → σ → Prop := fun _ H _ => H = []

/-- **The invariant**: what is left of every script is orderly for the locks its party has, and
there is one keeper at most. -/
structure Orderly (T : Terms L σ) (s : Pool L ε σ P α) (had : P → List L) : Prop where
  inv : T.inv s.state
  lock : ∀ l p, s.lock l = some p ↔ l ∈ had p
  nodup : ∀ p, (had p).Nodup
  idle : ∀ p, s.job p = none → had p = []
  job : ∀ p, ∀ j ∈ s.job p, j.script.Orderly T j.keeper NoLocks (had p) s.state
  one : ∀ p q, ∀ j ∈ s.job p, ∀ i ∈ s.job q, j.keeper = true → i.keeper = true → p = q

variable {T : Terms L σ} {allowed : C → Prop}
variable {code : P → C → Job L ε σ α} {s s' : Pool L ε σ P α} {had : P → List L} {p : P}

omit [DecidableEq L] in
theorem mem_update {q : P} {x : Option (Job L ε σ α)} {j : Job L ε σ α}
    (h : j ∈ update s.job p x q) : (q = p ∧ j ∈ x) ∨ (q ≠ p ∧ j ∈ s.job q) := by
  by_cases hq : q = p
  · subst hq
    rw [update_self] at h
    exact .inl ⟨rfl, h⟩
  · rw [update_of_ne hq] at h
    exact .inr ⟨hq, h⟩

namespace Orderly

section

variable (h : s.Orderly T had)

include h

theorem idle_update {q : P} {x : Option (Job L ε σ α)}
    (hidle : update s.job p x q = none) (hq : q ≠ p) : had q = [] := by
  rw [update_of_ne hq] at hidle
  exact h.idle q hidle

/-- Party `p` goes from one script to the next, with other locks and perhaps another state. -/
theorem move {t : σ} {lock : L → Option P} {H : List L} {w : Bool}
    {x y : Script L ε σ α} (hp : s.job p = some ⟨w, x⟩) (ht : T.inv t)
    (hlock : ∀ l q, lock l = some q ↔ l ∈ update had p H q) (hH : H.Nodup)
    (hy : y.Orderly T w NoLocks H t)
    (hothers : ∀ q ≠ p, ∀ j ∈ s.job q, T.rely j.keeper (had q) s.state t) :
    Orderly T { state := t, lock := lock, job := update s.job p (some ⟨w, y⟩) }
      (update had p H) where
  inv := ht
  lock := hlock
  nodup q := by
    by_cases hq : q = p
    · rwa [hq, update_self]
    · rw [update_of_ne hq]
      exact h.nodup q
  idle q hidle := by
    by_cases hq : q = p
    · simp [hq] at hidle
    · rw [update_of_ne hq]
      exact h.idle_update hidle hq
  job q j hj := by
    rcases mem_update hj with ⟨rfl, ⟨⟩⟩ | ⟨hq, hj⟩
    · rwa [update_self]
    · rw [update_of_ne hq]
      exact (h.job q j hj).relied (hothers q hq j hj)
  one q r j hj i hi hjk hik := by
    -- the job of `p` is as much of a keeper as it was
    have hold : ∀ q, ∀ j ∈ update s.job p (some ⟨w, y⟩) q, j.keeper = true →
        ∃ i ∈ s.job q, i.keeper = true := by
      intro q j hj hk
      rcases mem_update hj with ⟨rfl, ⟨⟩⟩ | ⟨-, hj⟩
      · exact ⟨_, hp, hk⟩
      · exact ⟨j, hj, hk⟩
    obtain ⟨j', hj', hjk'⟩ := hold q j hj hjk
    obtain ⟨i', hi', hik'⟩ := hold r i hi hik
    exact h.one q r j' hj' i' hi' hjk' hik'

theorem finish (hnone : had p = []) :
    Orderly T { s with job := update s.job p none } had where
  __ := h
  idle q hidle := by
    by_cases hq : q = p
    · rwa [hq]
    · exact h.idle_update hidle hq
  job q j hj := by
    rcases mem_update hj with ⟨-, ⟨⟩⟩ | ⟨-, hj⟩
    exact h.job q j hj
  one q r j hj i hi := by
    rcases mem_update hj with ⟨-, ⟨⟩⟩ | ⟨-, hj⟩
    rcases mem_update hi with ⟨-, ⟨⟩⟩ | ⟨-, hi⟩
    exact h.one q r j hj i hi

theorem lock_take {l : L} (hfree : s.lock l = none) (l' : L) (q : P) :
    update s.lock l (some p) l' = some q ↔ l' ∈ update had p (l :: had p) q := by
  by_cases hl : l' = l
  · subst hl
    have hnot : l' ∉ had q := fun hq => by simp [(h.lock l' q).2 hq] at hfree
    by_cases hq : q = p
    · simp [hq]
    · simp [update_of_ne hq, hnot, Ne.symm hq]
  · rw [update_of_ne hl, h.lock l' q]
    by_cases hq : q = p
    · simp [hq, hl]
    · rw [update_of_ne hq]

theorem lock_give {l : L} (hhas : s.lock l = some p) (l' : L) (q : P) :
    update s.lock l none l' = some q ↔ l' ∈ update had p ((had p).erase l) q := by
  by_cases hl : l' = l
  · subst hl
    by_cases hq : q = p
    · simp [hq, (h.nodup p).mem_erase_iff]
    · have hnot : l' ∉ had q := by
        intro hmem
        have := (h.lock l' q).2 hmem
        rw [hhas, Option.some.injEq] at this
        exact hq this.symm
      simp [update_of_ne hq, hnot]
  · rw [update_of_ne hl, h.lock l' q]
    by_cases hq : q = p
    · simp [hq, List.mem_erase_of_ne hl]
    · rw [update_of_ne hq]

/-- **A turn** that meets the rule keeps the invariant. -/
theorem turn (hrule : s.Rule T code allowed (.turn p)) (hs : s.turn p = some s') :
    ∃ had', s'.Orderly T had' := by
  have hfit : ∀ q, ∀ j ∈ s.job q, ∀ l ∈ had q, T.fit j.keeper l s.state := by
    intro q j hj l hl
    exact hrule.2 l q ((h.lock l q).2 hl) j hj
  have hstay : ∀ q ≠ p, ∀ j ∈ s.job q, T.rely j.keeper (had q) s.state s.state :=
    fun q _ j _ => T.refl ..
  unfold Pool.turn at hs
  rcases hp : s.job p with _ | ⟨w, x⟩
  · rw [hp] at hs
    cases hs
  · have hx := h.job p _ hp
    rw [hp] at hs
    cases x with
    | done a =>
      cases hs
      exact ⟨had, h.finish hx⟩
    | act m k =>
      rcases hm : exec m s.state with ⟨e | b, t⟩
      · simp [hm] at hs
      · simp only [hm, Option.some.injEq] at hs
        subst hs
        obtain ⟨hguar, hk⟩ := hx _ (T.refl ..) ⟨h.inv, hrule.1, hfit p _ hp⟩ b t hm
        refine ⟨_, h.move hp (T.guar_inv hguar) (fun l q => ?_) (h.nodup p) hk fun q hq j hj => ?_⟩
        · rw [update_eq_self]
          exact h.lock l q
        · -- the other party has other locks, and not both are keepers
          refine T.guar_rely (fun l hl hl' => hq ?_) (fun hboth => hq ?_) (hfit p _ hp)
            (hfit q j hj) hguar
          · exact Option.some.inj (((h.lock l q).2 hl).symm.trans ((h.lock l p).2 hl'))
          · exact h.one q p j hj _ hp hboth.2 hboth.1
    | acquire l k =>
      simp only at hs
      split at hs
      · rename_i hfree
        cases hs
        obtain ⟨hl, -, hk⟩ := hx
        exact ⟨_, h.move hp h.inv (h.lock_take hfree) (List.nodup_cons.2 ⟨hl, h.nodup p⟩)
          (hk _ (T.refl ..)) hstay⟩
      · cases hs
    | release l k =>
      simp only at hs
      split at hs
      · rename_i hhas
        cases hs
        exact ⟨_, h.move hp h.inv (h.lock_give hhas) ((h.nodup p).erase l)
          (hx ((h.lock l p).1 hhas) _ (T.refl ..)) hstay⟩
      · cases hs

/-- **A start** that meets the rule keeps the invariant. -/
theorem start {c : C} (hp : s.job p = none)
    (hc : (code p c).script.Orderly T (code p c).keeper NoLocks [] s.state)
    (hrule : (code p c).keeper = true → ∀ q, ∀ j ∈ s.job q, j.keeper = false) :
    Orderly T { s with job := update s.job p (some (code p c)) } had where
  __ := h
  idle q hidle := by
    by_cases hq : q = p
    · simp [hq] at hidle
    · exact h.idle_update hidle hq
  job q j hj := by
    rcases mem_update hj with ⟨rfl, ⟨⟩⟩ | ⟨-, hj⟩
    · rwa [h.idle q hp]
    · exact h.job q j hj
  one q r j hj i hi hjk hik := by
    -- a new keeper is the only one
    have hnew : ∀ j ∈ some (code p c), j.keeper = true → ∀ q, ∀ i ∈ s.job q, i.keeper ≠ true := by
      intro j hj hk q i hi
      rw [Option.mem_some_iff] at hj
      subst hj
      simp [hrule hk q i hi]
    rcases mem_update hj with ⟨rfl, hj⟩ | ⟨-, hj⟩
    · rcases mem_update hi with ⟨rfl, -⟩ | ⟨-, hi⟩
      · rfl
      · exact absurd hik (hnew j hj hjk r i hi)
    · rcases mem_update hi with ⟨-, hi⟩ | ⟨-, hi⟩
      · exact absurd hjk (hnew i hi hik q j hj)
      · exact h.one q r j hj i hi hjk hik

omit [DecidableEq P] in
/-- A party that waits for another and is waited for is a keeper, and it does not wait for
itself. -/
theorem keeper_of_waits {q r : P} (hpq : s.WaitsFor p q) (hqr : s.WaitsFor q r) :
    (∃ j ∈ s.job q, j.keeper = true) ∧ r ≠ q := by
  obtain ⟨l, -, hl⟩ := hpq
  obtain ⟨l', hl', hlock⟩ := hqr
  unfold awaited at hl'
  split at hl'
  · rename_i hjob
    cases hl'
    obtain ⟨hnot, hkeeper, -⟩ := h.job q _ hjob
    refine ⟨⟨_, hjob, hkeeper ?_⟩, ?_⟩
    · -- `q` has the lock that `p` waits for
      exact List.ne_nil_of_mem ((h.lock l q).1 hl)
    · rintro rfl
      exact hnot ((h.lock _ _).1 hlock)
  · cases hl'

omit [DecidableEq P] in
/-- **No circle**: all parties on it would be the one keeper, waiting for itself. -/
theorem not_deadlocked : ¬ s.Deadlocked := by
  rintro ⟨p, hcircle⟩
  -- on a way from `p` to itself every party is waited for and waits
  obtain ⟨q, hpq, hqp⟩ := Relation.TransGen.head'_iff.1 hcircle
  obtain ⟨o, hpo, hop⟩ := Relation.TransGen.tail'_iff.1 hcircle
  obtain ⟨⟨j, hj, hjk⟩, hqne⟩ := h.keeper_of_waits hop hpq
  rcases hqp.cases_head with rfl | ⟨r, hqr, -⟩
  · exact hqne rfl
  · obtain ⟨⟨i, hi, hik⟩, -⟩ := h.keeper_of_waits hpq hqr
    exact hqne (h.one q p i hi j hj hik hjk)

end

end Orderly

/-- **Orderly scripts do not deadlock** in any run that keeps to the rule. -/
theorem not_deadlocked {s0 : Pool L ε σ P α}
    (hcode : ∀ p c, allowed c → ∀ s, (code p c).script.Orderly T (code p c).keeper NoLocks [] s)
    (h0 : s0.Idle) (hinv : T.inv s0.state) (h : Run (step code) (Rule T code allowed) s0 s) :
    ¬ s.Deadlocked := by
  have hinv : ∃ had, s.Orderly T had := by
    refine h.invariant (fun s => ∃ had, s.Orderly T had) ⟨fun _ => [], ?_⟩ ?_
    · constructor <;> simp [h0.job, h0.lock, hinv]
    · rintro s e s' ⟨had, horderly⟩ hrule hs
      cases e with
      | start p c =>
        simp only [step] at hs
        split at hs
        · rename_i hp
          cases hs
          exact ⟨had, horderly.start hp (hcode p c hrule.1 _) hrule.2⟩
        · cases hs
      | turn p => exact horderly.turn hrule hs
  obtain ⟨had, horderly⟩ := hinv
  exact horderly.not_deadlocked

end Pool

end Foundation
