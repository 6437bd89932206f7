import Mathlib.Tactic.Basic

/-! # Runs of a partial step function

A system is a step function `step : σ → ε → Option σ` on states and events; `none` means that
the event cannot happen in that state. `Run step guard s0 s` says that `s` is reached from `s0`
by steps each of which met `guard` in the state before it. Taking `guard` to be always true
gives plain reachability, and a stronger guard carves out the runs on which some branch of the
system is never taken.

* **`Run.invariant`** — what holds at the start and is kept by every guarded step holds in every
  state reached.
* **`Run.mono`** — a run under a guard is a run under every weaker guard.
* **`runs`** — the executable form: fold a list of events, for exhibiting concrete runs. -/

namespace Foundation

variable {σ ε : Type*}

/-- `Run step guard s0 s`: the state `s` is reached from `s0` by steps of `step`, every one taken
in a state where `guard` allows its event. -/
inductive Run (step : σ → ε → Option σ) (guard : σ → ε → Prop) (s0 : σ) : σ → Prop
  | refl : Run step guard s0 s0
  | next {s s' : σ} (e : ε) :
      Run step guard s0 s → guard s e → step s e = some s' → Run step guard s0 s'

/-- **Plain reachability**: no condition on the steps. -/
abbrev Reachable (step : σ → ε → Option σ) (s0 s : σ) : Prop :=
  Run step (fun _ _ => True) s0 s

variable {step : σ → ε → Option σ} {guard : σ → ε → Prop} {s0 s : σ}

/-- **The invariant rule.** A predicate that holds at the start and is kept by every guarded step
holds in every state of every guarded run. -/
theorem Run.invariant (Inv : σ → Prop) (h0 : Inv s0)
    (hstep : ∀ s e s', Inv s → guard s e → step s e = some s' → Inv s') (h : Run step guard s0 s) :
    Inv s := by
  induction h with
  | refl => exact h0
  | next e _ hg hs ih => exact hstep _ e _ ih hg hs

theorem Run.trans (h : Run step guard s0 s) {s' : σ} (h' : Run step guard s s') :
    Run step guard s0 s' := by
  induction h' with
  | refl => exact h
  | next e _ hg hs ih => exact .next e ih hg hs

/-- A run under a guard is a run under every other guard that follows from it and an invariant. -/
theorem Run.strengthen {g : σ → ε → Prop} (Inv : σ → Prop) (h0 : Inv s0)
    (hstep : ∀ s e s', Inv s → guard s e → step s e = some s' → Inv s')
    (hle : ∀ s e, Inv s → guard s e → g s e) (h : Run step guard s0 s) :
    Run step g s0 s ∧ Inv s := by
  induction h with
  | refl => exact ⟨.refl, h0⟩
  | next e _ hg hs ih => exact ⟨.next e ih.1 (hle _ e ih.2 hg) hs, hstep _ e _ ih.2 hg hs⟩

theorem Run.mono {guard' : σ → ε → Prop} (hle : ∀ s e, guard s e → guard' s e)
    (h : Run step guard s0 s) : Run step guard' s0 s :=
  (h.strengthen (fun _ => True) trivial (fun _ _ _ _ _ _ => trivial) fun s e _ => hle s e).1

/-- **Execute a list of events** in order; `none` as soon as one of them cannot happen or is not
allowed. -/
def runs (step : σ → ε → Option σ) (guard : σ → ε → Prop) [∀ s e, Decidable (guard s e)] :
    σ → List ε → Option σ
  | s, [] => some s
  | s, e :: es => if guard s e then (step s e).bind fun s' => runs step guard s' es else none

theorem run_of_runs [∀ s e, Decidable (guard s e)] {s' : σ} {es : List ε} (h : Run step guard s0 s)
    (hs : runs step guard s es = some s') : Run step guard s0 s' := by
  induction es generalizing s with
  | nil =>
    rw [runs, Option.some.injEq] at hs
    exact hs ▸ h
  | cons e es ih =>
    rw [runs] at hs
    split at hs
    · rename_i hg
      rw [Option.bind_eq_some_iff] at hs
      obtain ⟨s1, hs1, hs⟩ := hs
      exact ih (.next e h hg hs1) hs
    · cases hs

/-- **Exhibiting a state of a run.** If a list of events executes from `s0` to a state that
passes the test `p`, then some run ends in a state that passes `p`. -/
theorem exists_run_of_runs (step : σ → ε → Option σ) (guard : σ → ε → Prop)
    [∀ s e, Decidable (guard s e)] (s0 : σ) (es : List ε) (p : σ → Bool)
    (h : (runs step guard s0 es).map p = some true) : ∃ s, Run step guard s0 s ∧ p s = true := by
  rw [Option.map_eq_some_iff] at h
  obtain ⟨s, hs, hp⟩ := h
  exact ⟨s, run_of_runs .refl hs, hp⟩

end Foundation
