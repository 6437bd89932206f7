import Xv6.Foundation.Fallible

/-! # Predictive parsers

A grammar symbol is the relation `P` between a tree and what is left of the input. A parser that
looks ahead and never goes back reads in one way only, so it can be right only where what is left
may follow the symbol: `F`.

* **`Accepts P F t r`** — `t` is a reading that leaves `r`, and the only one that leaves something
  that may follow;
* **`Refuses P F`** — there is no such reading;
* **`Parses`** — code that returns under the first and stops under the second, with the rules
  `Parses.seq` for one symbol after the other and `Parses.of_imp` for choosing a production. -/

namespace Foundation

universe u

variable {τ τ' ρ : Type*} {P P' : τ → ρ → Prop} {P2 : τ → ρ → τ' → ρ → Prop} {F : ρ → Prop}
  {F' : ρ → Prop}
  {t : τ} {t' : τ'} {r r' : ρ}

/-- The tree `t` is read and `r` is left; no other reading leaves something that may follow. -/
structure Accepts (P : τ → ρ → Prop) (F : ρ → Prop) (t : τ) (r : ρ) : Prop where
  reads : P t r
  unique : ∀ t' r', P t' r' → F r' → t' = t ∧ r' = r

/-- No reading leaves something that may follow. -/
def Refuses (P : τ → ρ → Prop) (F : ρ → Prop) : Prop := ∀ t r, P t r → ¬ F r

/-- One symbol after the other; the second may depend on what the first has read. -/
def Seq (P : τ → ρ → Prop) (P2 : τ → ρ → τ' → ρ → Prop) (t' : τ') (r' : ρ) : Prop :=
  ∃ t r, P t r ∧ P2 t r t' r'

theorem Accepts.seq (h : Accepts P F t r) (h' : Accepts (P2 t r) F' t' r')
    (hF : ∀ t r t' r', P2 t r t' r' → F' r' → F r) : Accepts (Seq P P2) F' t' r' := by
  refine ⟨⟨t, r, h.reads, h'.reads⟩, ?_⟩
  rintro t2 r2 ⟨s, q, hP, hP2⟩ hr2
  obtain ⟨rfl, rfl⟩ := h.unique s q hP (hF _ _ _ _ hP2 hr2)
  exact h'.unique t2 r2 hP2 hr2

theorem Accepts.seq_refuses (h : Accepts P F t r) (h' : Refuses (P2 t r) F')
    (hF : ∀ t r t' r', P2 t r t' r' → F' r' → F r) : Refuses (Seq P P2) F' := by
  rintro t2 r2 ⟨s, q, hP, hP2⟩ hr2
  obtain ⟨rfl, rfl⟩ := h.unique s q hP (hF _ _ _ _ hP2 hr2)
  exact h' t2 r2 hP2 hr2

theorem Refuses.seq (h : Refuses P F) (hF : ∀ t r t' r', P2 t r t' r' → F' r' → F r) :
    Refuses (Seq P P2) F' := by
  rintro t2 r2 ⟨s, q, hP, hP2⟩ hr2
  exact h s q hP (hF _ _ _ _ hP2 hr2)

theorem Accepts.of_imp (h : Accepts P F t r) (hsound : P t r → P' t r)
    (hcomplete : ∀ t r, P' t r → F r → P t r) : Accepts P' F t r :=
  ⟨hsound h.reads, fun t' r' hP hr => h.unique t' r' (hcomplete t' r' hP hr) hr⟩

theorem Refuses.of_imp (h : Refuses P F) (hcomplete : ∀ t r, P' t r → F r → P t r) : Refuses P' F :=
  fun t r hP hr => h t r (hcomplete t r hP hr) hr

/-! ## Code -/

section

variable {σ ε α β : Type u} {R : α → σ → τ → ρ → Prop} {R2 : β → σ → τ' → ρ → Prop} {bad : ε → Prop}
  {m : Fallible ε σ α} {f : α → Fallible ε σ β} {s : σ}

/-- **The code parses a symbol.** A value and a state of the code stand for a tree and the rest of
the input under `R`; a stop for a reason in `bad` is a refusal, and there are no other stops. -/
def Parses (R : α → σ → τ → ρ → Prop) (bad : ε → Prop) (m : Fallible ε σ α) (s : σ)
    (P : τ → ρ → Prop)
    (F : ρ → Prop) : Prop :=
  Ends m s (fun a s' => ∃ t r, R a s' t r ∧ Accepts P F t r) fun e _ => bad e ∧ Refuses P F

theorem parses_pure {a : α} (hR : R a s t r) (h : Accepts P F t r) : Parses R bad (pure a) s P F :=
  ⟨t, r, hR, h⟩

section

variable (h : Parses R bad m s P F)

include h

theorem Parses.seq (hF : ∀ t r t' r', P2 t r t' r' → F' r' → F r)
    (hf : ∀ a s' t r, R a s' t r → P t r → Parses R2 bad (f a) s' (P2 t r) F') :
    Parses R2 bad (m >>= f) s (Seq P P2) F' := by
  rw [Parses, ends_bind]
  refine h.mono ?_ ?_
  · rintro a s' ⟨t, r, hR, hacc⟩
    refine (hf a s' t r hR hacc.reads).mono ?_ ?_
    · rintro b s'' ⟨t', r', hR', hacc'⟩
      exact ⟨t', r', hR', hacc.seq hacc' hF⟩
    · rintro e s'' ⟨he, href⟩
      exact ⟨he, hacc.seq_refuses href hF⟩
  · rintro e s' ⟨he, href⟩
    exact ⟨he, href.seq hF⟩

/-- **A production is chosen**: it is one for the symbol, and every reading that counts is one of
it. -/
theorem Parses.of_imp (hsound : ∀ t r, P t r → P' t r)
    (hcomplete : ∀ t r, P' t r → F r → P t r) : Parses R bad m s P' F := by
  refine h.mono ?_ ?_
  · rintro a s' ⟨t, r, hR, hacc⟩
    exact ⟨t, r, hR, hacc.of_imp (hsound t r) hcomplete⟩
  · rintro e s' ⟨he, href⟩
    exact ⟨he, href.of_imp hcomplete⟩

theorem Parses.map {g : τ → τ'} {k : α → β}
    (hk : ∀ a s' t r, R a s' t r → R2 (k a) s' (g t) r) :
    Parses R2 bad (m >>= fun a => pure (k a)) s (fun t' r => ∃ t, t' = g t ∧ P t r) F := by
  rw [Parses, ends_bind]
  refine h.mono ?_ ?_
  · rintro a s' ⟨t, r, hR, hacc⟩
    refine ⟨g t, r, hk a s' t r hR, ⟨t, rfl, hacc.reads⟩, ?_⟩
    rintro _ r' ⟨t', rfl, hP⟩ hr'
    obtain ⟨rfl, rfl⟩ := hacc.unique t' r' hP hr'
    exact ⟨rfl, rfl⟩
  · rintro e s' ⟨he, href⟩
    refine ⟨he, ?_⟩
    rintro _ r ⟨t, -, hP⟩
    exact href t r hP

theorem Parses.mono_follow {F' : ρ → Prop} (hF : ∀ r, F' r → F r) :
    Parses R bad m s P F' := by
  refine h.mono ?_ ?_
  · rintro a s' ⟨t, r, hR, hacc⟩
    exact ⟨t, r, hR, hacc.reads, fun t' r' hP hr' => hacc.unique t' r' hP (hF r' hr')⟩
  · rintro e s' ⟨he, href⟩
    exact ⟨he, fun t r hP hr => href t r hP (hF r hr)⟩

end

theorem Parses.stopIf {p : Prop} [Decidable p] {e : ε} {g : PUnit → Fallible ε σ α}
    (hp : p → bad e ∧ Refuses P F) (h : ¬ p → Parses R bad (g ⟨⟩) s P F) :
    Parses R bad (stopIf p e >>= g) s P F := by
  rw [Parses, ends_bind, ends_stopIf]
  exact ⟨hp, h⟩

theorem Parses.of_returns {γ : Type u} {k : Fallible ε σ γ} {c : γ} {s' : σ}
    {g : γ → Fallible ε σ α}
    (hk : Returns k s c s') (h : Parses R bad (g c) s' P F) : Parses R bad (k >>= g) s P F :=
  (ends_bind_of_returns hk).2 h

end

end Foundation
