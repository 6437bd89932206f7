import Xv6.Foundation.Runs

/-! # Code that reads what others write

A program that reads cells of a memory one at a time, while an environment changes the memory
between any two of its reads. A *test* is a read for a certain value; once it has succeeded, the
program relies on the cell keeping that value, and the cell is recorded as a fact.

* **`Safe claim allowed Q m F`** — a program logic: under the facts `F` the program `m` tests only
  for what `claim` admits, reads only cells that `allowed` admits for the facts it has by then, and
  ends with `Q`. It has a rule per construct and `safe_bind` for sequences.
* **`Shared.safe`** — if the environment keeps the facts, then in every interleaving all facts hold
  and what is left of the program is safe. -/

namespace Foundation

/-- A program that reads cells in `A` with values in `V`. -/
inductive Prog (A V : Type) (α : Type) : Type
  | done (a : α)
  /-- The program is not followed any further. -/
  | stop
  | read (x : A) (k : V → Prog A V α)
  /-- A read that looks for the value `v`. -/
  | test (x : A) (v : V) (yes no : Prog A V α)
  /-- Something else happens, with any outcome. -/
  | any (k : Nat → Prog A V α)

namespace Prog

variable {A V α β : Type}

/-- One program after the other. -/
def bind : Prog A V α → (α → Prog A V β) → Prog A V β
  | done a, f => f a
  | stop, _ => stop
  | read x k, f => read x fun v => (k v).bind f
  | test x v yes no, f => test x v (yes.bind f) (no.bind f)
  | any k, f => any fun n => (k n).bind f

instance : Monad (Prog A V) where
  pure := done
  bind := bind

/-- The cells that a program relies on, with their values. -/
abbrev Facts (A V : Type) := List (A × V)

/-- **The program is safe** under the facts `F`. -/
def Safe (claim : A → V → Prop) (allowed : Facts A V → A → Prop) (Q : α → Facts A V → Prop) :
    Prog A V α → Facts A V → Prop
  | done a, F => Q a F
  | stop, _ => True
  | read x k, F => allowed F x ∧ ∀ v, (∀ w, (x, w) ∈ F → v = w) → (k v).Safe claim allowed Q F
  | test x v yes no, F => claim x v ∧ yes.Safe claim allowed Q ((x, v) :: F) ∧
    no.Safe claim allowed Q F
  | any k, F => ∀ n, (k n).Safe claim allowed Q F

section

variable {claim : A → V → Prop} {allowed : Facts A V → A → Prop} {F : Facts A V}

theorem Safe.mono {Q Q' : α → Facts A V → Prop} {m : Prog A V α} (h : m.Safe claim allowed Q F)
    (hQ : ∀ a F, Q a F → Q' a F) : m.Safe claim allowed Q' F := by
  induction m generalizing F with
  | done a => exact hQ a F h
  | stop => trivial
  | read x k ih => exact ⟨h.1, fun v hv => ih v (h.2 v hv)⟩
  | test x v yes no ihy ihn => exact ⟨h.1, ihy h.2.1, ihn h.2.2⟩
  | any k ih => exact fun n => ih n (h n)

theorem safe_bind {Q : β → Facts A V → Prop} {m : Prog A V α} {f : α → Prog A V β} :
    (m >>= f).Safe claim allowed Q F ↔
      m.Safe claim allowed (fun a F => (f a).Safe claim allowed Q F) F := by
  show (m.bind f).Safe claim allowed Q F ↔ _
  induction m generalizing F with
  | done a | stop => exact Iff.rfl
  | read x k ih => exact and_congr_right fun _ => forall₂_congr fun v _ => ih v
  | test x v yes no ihy ihn => exact and_congr_right fun _ => and_congr ihy ihn
  | any k ih => exact forall_congr' fun n => ih n

end

end Prog

/-! ## Interleavings -/

/-- A program and its environment, with the facts the program relies on. -/
structure Shared (σ A V α : Type) where
  env : σ
  facts : Prog.Facts A V
  prog : Prog A V α

/-- Who takes a step: the program, with an outcome for what is left open, or the environment. -/
inductive Turn (ε : Type)
  | ours (outcome : Nat)
  | theirs (e : ε)

namespace Shared

variable {σ ε A V α : Type} [DecidableEq V]

/-- **One step** of a program and its environment. -/
def step (value : σ → A → Option V) (envStep : σ → ε → Option σ) (s : Shared σ A V α) :
    Turn ε → Option (Shared σ A V α)
  | .theirs e => (envStep s.env e).map fun env => { s with env := env }
  | .ours n =>
    match s.prog with
    | .done _ | .stop => none
    | .read x k => (value s.env x).map fun v => { s with prog := k v }
    | .test x v yes no => (value s.env x).map fun w =>
      if w = v then { s with facts := (x, v) :: s.facts, prog := yes } else { s with prog := no }
    | .any k => some { s with prog := k n }

/-- The facts hold, and what is left of the program is safe under them. -/
structure Ok (value : σ → A → Option V) (claim : A → V → Prop) (allowed : Prog.Facts A V → A → Prop)
    (Q : α → Prog.Facts A V → Prop) (Inv : σ → Prop) (s : Shared σ A V α) : Prop where
  inv : Inv s.env
  facts : ∀ x v, (x, v) ∈ s.facts → claim x v ∧ value s.env x = some v
  safe : s.prog.Safe claim allowed Q s.facts

variable {value : σ → A → Option V} {envStep : σ → ε → Option σ} {claim : A → V → Prop}
  {allowed : Prog.Facts A V → A → Prop} {Q : α → Prog.Facts A V → Prop} {Inv : σ → Prop}
  {guard : Shared σ A V α → Turn ε → Prop}

theorem Ok.ours {s s' : Shared σ A V α} {n : Nat} (h : Ok value claim allowed Q Inv s)
    (hs : s.step value envStep (.ours n) = some s') : Ok value claim allowed Q Inv s' := by
  obtain ⟨env, F, m⟩ := s
  have hsafe := h.safe
  cases m with
  | done a | stop => cases hs
  | read x k =>
    simp only [step, Option.map_eq_some_iff] at hs
    obtain ⟨v, hv, rfl⟩ := hs
    refine ⟨h.inv, h.facts, hsafe.2 v fun w hw => ?_⟩
    exact Option.some.inj (hv.symm.trans (h.facts x w hw).2)
  | test x v yes no =>
    simp only [step, Option.map_eq_some_iff] at hs
    obtain ⟨w, hw, hs⟩ := hs
    split at hs
    · rename_i heq
      obtain rfl := hs
      refine ⟨h.inv, fun y u hy => ?_, hsafe.2.1⟩
      rcases List.mem_cons.1 hy with hyx | hy
      · obtain ⟨rfl, rfl⟩ := Prod.mk.inj hyx
        exact ⟨hsafe.1, heq ▸ hw⟩
      · exact h.facts y u hy
    · obtain rfl := hs
      exact ⟨h.inv, h.facts, hsafe.2.2⟩
  | any k =>
    cases hs
    exact ⟨h.inv, h.facts, hsafe n⟩

/-- **Every interleaving is safe** if the steps of the environment, as far as the guard allows them,
keep the facts. -/
theorem safe {s0 s : Shared σ A V α} (h0 : Ok value claim allowed Q Inv s0)
    (hinv : ∀ env e env', Inv env → envStep env e = some env' → Inv env')
    (hkeep : ∀ s : Shared σ A V α, ∀ e env', Inv s.env → guard s (.theirs e) →
      envStep s.env e = some env' → ∀ x v, (x, v) ∈ s.facts → claim x v → value s.env x = some v →
      value env' x = some v)
    (hrun : Run (step value envStep) guard s0 s) : Ok value claim allowed Q Inv s := by
  refine Run.invariant _ h0 (fun s t s' h hg hs => ?_) hrun
  cases t with
  | ours n => exact h.ours hs
  | theirs e =>
    simp only [step, Option.map_eq_some_iff] at hs
    obtain ⟨env', henv, rfl⟩ := hs
    exact ⟨hinv _ e _ h.inv henv, fun x v hx => ⟨(h.facts x v hx).1,
      hkeep s e env' h.inv hg henv x v hx (h.facts x v hx).1 (h.facts x v hx).2⟩, h.safe⟩

end Shared

end Foundation
