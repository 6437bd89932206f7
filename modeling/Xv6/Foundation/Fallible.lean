import Mathlib.Tactic.Basic

/-! # Stateful code that may stop

Code in `ExceptT ε (StateM σ)` either returns a value or stops for a reason; the state it leaves
is there in both cases, so that one can ask what a crash leaves behind.

* **`Returns m s a s'`** — the first outcome. A call that returns is taken apart along its binds
  with `returns_bind` and its siblings.
* **`Ends m s Q C`** — the code, started in `s`, returns under `Q` or stops under `C`: the weakest
  precondition of a postcondition together with a condition on what a stop leaves. `ends_bind` and
  its siblings execute code symbolically, `Ends.mono` uses what is known of a call.
* **`untilSome`** — a loop that may be left early, with its invariant rule `ends_untilSome`; a loop
  that always runs to its end is `List.forM`, with `ends_forM`.
* **`zoom`** — run code on a part of the state; **`translate`** — with other words for its reasons.
* **`exists_returns`** — the outcome on a concrete state, found by running the code. -/

namespace Foundation

universe u

variable {σ ε α β : Type u}

/-- Code over states `σ` that may stop for a reason in `ε`. -/
abbrev Fallible (ε σ : Type u) := ExceptT ε (StateM σ)

/-- The outcome of the code and the state it leaves. -/
def exec (m : Fallible ε σ α) (s : σ) : Except ε α × σ := m.run.run s

/-- The code `m`, started in `s`, returns `a` and leaves the state `s'`. -/
def Returns (m : Fallible ε σ α) (s : σ) (a : α) (s' : σ) : Prop :=
  exec m s = (.ok a, s')

/-- A check: stop for the reason `e` if `p` holds. -/
def stopIf (p : Prop) [Decidable p] (e : ε) : Fallible ε σ PUnit :=
  if p then throw e else pure ⟨⟩

/-- A statement that is executed only if `p` holds. -/
def onlyIf (p : Prop) [Decidable p] (m : Fallible ε σ PUnit) : Fallible ε σ PUnit :=
  if p then m else pure ⟨⟩

/-- A loop over a list that is left as soon as its body gives a result. -/
def untilSome {ι : Type*} (body : ι → Fallible ε σ (Option β)) : List ι → Fallible ε σ (Option β)
  | [] => pure none
  | a :: l => do
    match ← body a with
    | some b => pure (some b)
    | none => untilSome body l

/-- Run code on the part of the state that `get` selects and `set` replaces. -/
def zoom {τ : Type u} (get : σ → τ) (set : τ → σ → σ) (m : Fallible ε τ α) : Fallible ε σ α :=
  ExceptT.mk fun s => ((exec m (get s)).1, set (exec m (get s)).2 s)

/-- Run code that gives its reasons in other words. -/
def translate {ε' : Type u} (g : ε' → ε) (m : Fallible ε' σ α) : Fallible ε σ α :=
  ExceptT.mk fun s => ((exec m s).1.mapError g, (exec m s).2)

/-! ## Running the code -/

@[simp] theorem exec_pure (a : α) (s : σ) : exec (pure a : Fallible ε σ α) s = (.ok a, s) := rfl

@[simp] theorem exec_get (s : σ) : exec (get : Fallible ε σ σ) s = (.ok s, s) := rfl

@[simp] theorem exec_modify (f : σ → σ) (s : σ) :
    exec (modify f : Fallible ε σ PUnit) s = (.ok ⟨⟩, f s) := rfl

@[simp] theorem exec_throw (e : ε) (s : σ) :
    exec (throw e : Fallible ε σ α) s = (.error e, s) := rfl

theorem exec_bind (m : Fallible ε σ α) (f : α → Fallible ε σ β) (s : σ) :
    exec (m >>= f) s = match exec m s with
      | (.ok a, s') => exec (f a) s'
      | (.error e, s') => (.error e, s') := by
  simp only [exec, ExceptT.run_bind, StateT.run_bind]
  rcases m.run.run s with ⟨_ | _, _⟩ <;> rfl

/-! ## Code that returns -/

theorem returns_bind {m : Fallible ε σ α} {f : α → Fallible ε σ β} {s s'' : σ} {b : β} :
    Returns (m >>= f) s b s'' ↔ ∃ a s', Returns m s a s' ∧ Returns (f a) s' b s'' := by
  simp only [Returns, exec_bind]
  rcases exec m s with ⟨e | a, s'⟩
  · simp
  · exact ⟨fun h => ⟨a, s', rfl, h⟩, by rintro ⟨a, s', ⟨⟩, h⟩; exact h⟩

@[simp] theorem returns_pure {s s' : σ} {a b : α} :
    Returns (pure a : Fallible ε σ α) s b s' ↔ b = a ∧ s' = s := by
  simp [Returns, eq_comm]

@[simp] theorem returns_get {s s' a : σ} :
    Returns (get : Fallible ε σ σ) s a s' ↔ a = s ∧ s' = s := by
  simp [Returns, eq_comm]

@[simp] theorem returns_modify {f : σ → σ} {s s' : σ} {u : PUnit} :
    Returns (modify f : Fallible ε σ PUnit) s u s' ↔ s' = f s := by
  simp [Returns, eq_comm]

@[simp] theorem returns_throw {e : ε} {s s' : σ} {a : α} :
    ¬ Returns (throw e : Fallible ε σ α) s a s' := by
  simp [Returns]

@[simp] theorem returns_stopIf {p : Prop} [Decidable p] {e : ε} {s s' : σ} {u : PUnit} :
    Returns (stopIf p e) s u s' ↔ ¬ p ∧ s' = s := by
  unfold stopIf
  split <;> simp_all

theorem returns_onlyIf {p : Prop} [Decidable p] {m : Fallible ε σ PUnit} {s s' : σ} {u : PUnit} :
    Returns (onlyIf p m) s u s' ↔ (p ∧ Returns m s u s') ∨ (¬ p ∧ s' = s) := by
  unfold onlyIf
  split <;> simp_all

theorem Returns.unique {m : Fallible ε σ α} {s s1 s2 : σ} {a b : α} (h : Returns m s a s1)
    (h' : Returns m s b s2) : a = b ∧ s1 = s2 := by
  have := h.symm.trans h'
  rw [Prod.mk.injEq, Except.ok.injEq] at this
  exact this

theorem returns_zoom {τ : Type u} {get : σ → τ} {set : τ → σ → σ} {m : Fallible ε τ α} {s s' : σ}
    {a : α} :
    Returns (zoom get set m) s a s' ↔ ∃ t, Returns m (get s) a t ∧ s' = set t s := by
  have h : exec (zoom get set m) s = ((exec m (get s)).1, set (exec m (get s)).2 s) := rfl
  rw [Returns, h, Prod.mk.injEq]
  constructor
  · rintro ⟨hval, rfl⟩
    exact ⟨_, Prod.ext hval rfl, rfl⟩
  · rintro ⟨t, hm, rfl⟩
    rw [show exec m (get s) = (.ok a, t) from hm]
    exact ⟨rfl, rfl⟩

theorem exists_returns {m : Fallible ε σ α} {s : σ} {p : α → σ → Bool}
    (h : (match exec m s with | (.ok a, s') => p a s' | (.error _, _) => false) = true) :
    ∃ a s', Returns m s a s' ∧ p a s' = true := by
  unfold Returns
  rcases hm : exec m s with ⟨e | a, s'⟩
  · simp [hm] at h
  · exact ⟨a, s', rfl, by simpa [hm] using h⟩

/-! ## Code with a condition at every stop -/

/-- The code, started in `s`, returns a value and a state related by `Q`, or stops for a reason and
in a state related by `C`. -/
def Ends (m : Fallible ε σ α) (s : σ) (Q : α → σ → Prop) (C : ε → σ → Prop) : Prop :=
  match exec m s with
  | (.ok a, s') => Q a s'
  | (.error e, s') => C e s'

section

variable {m : Fallible ε σ α} {s : σ} {Q Q' : α → σ → Prop} {C C' : ε → σ → Prop}

theorem Ends.mono (h : Ends m s Q C) (hQ : ∀ a s', Q a s' → Q' a s')
    (hC : ∀ e s', C e s' → C' e s') : Ends m s Q' C' := by
  unfold Ends at h ⊢
  split at h
  · exact hQ _ _ h
  · exact hC _ _ h

theorem Ends.imp (h : Ends m s Q C) (hQ : ∀ a s', Q a s' → Q' a s') : Ends m s Q' C :=
  h.mono hQ fun _ _ hC => hC

/-- **The rule of sequence**: a stop of either part is a stop of the whole. -/
theorem ends_bind {f : α → Fallible ε σ β} {Q : β → σ → Prop} :
    Ends (m >>= f) s Q C ↔ Ends m s (fun a s' => Ends (f a) s' Q C) C := by
  simp only [Ends, exec_bind]
  rcases exec m s with ⟨e | a, s'⟩ <;> rfl

theorem ends_bind_of_returns {f : α → Fallible ε σ β} {Q : β → σ → Prop} {a : α} {s' : σ}
    (h : Returns m s a s') : Ends (m >>= f) s Q C ↔ Ends (f a) s' Q C := by
  rw [ends_bind, Ends, show exec m s = (.ok a, s') from h]

@[simp] theorem ends_pure {a : α} : Ends (pure a : Fallible ε σ α) s Q C ↔ Q a s := Iff.rfl

@[simp] theorem ends_throw {e : ε} : Ends (throw e : Fallible ε σ α) s Q C ↔ C e s := Iff.rfl

@[simp] theorem ends_get {Q : σ → σ → Prop} : Ends (get : Fallible ε σ σ) s Q C ↔ Q s s := Iff.rfl

@[simp] theorem ends_modify {f : σ → σ} {Q : PUnit → σ → Prop} :
    Ends (modify f : Fallible ε σ PUnit) s Q C ↔ Q ⟨⟩ (f s) := Iff.rfl

@[simp] theorem ends_stopIf {p : Prop} [Decidable p] {e : ε} {Q : PUnit → σ → Prop} :
    Ends (stopIf p e) s Q C ↔ (p → C e s) ∧ (¬ p → Q ⟨⟩ s) := by
  unfold stopIf
  split <;> simp_all

theorem ends_onlyIf {p : Prop} [Decidable p] {m : Fallible ε σ PUnit} {Q : PUnit → σ → Prop} :
    Ends (onlyIf p m) s Q C ↔ (p → Ends m s Q C) ∧ (¬ p → Q ⟨⟩ s) := by
  unfold onlyIf
  split <;> simp_all

theorem ends_untilSome_pure {ι : Type*} {body : ι → Fallible ε σ (Option β)} {g : ι → Option β}
    {l : List ι} (h : ∀ a ∈ l, Ends (body a) s (fun r s' => s' = s ∧ r = g a) C) :
    Ends (untilSome body l) s (fun r s' => s' = s ∧ r = l.findSome? g) C := by
  induction l with
  | nil => exact ⟨rfl, rfl⟩
  | cons a l ih =>
    rw [untilSome, ends_bind]
    refine (h a List.mem_cons_self).imp ?_
    rintro r _ ⟨rfl, hr⟩
    rw [List.findSome?_cons, ← hr]
    cases r with
    | some b => exact ⟨rfl, rfl⟩
    | none => exact ih fun b hb => h b (List.mem_cons_of_mem a hb)

/-- **The invariant rule of a loop that may be left early**: the invariant is indexed by the number
of the iteration. -/
theorem ends_untilSome {body : Nat → Fallible ε σ (Option β)} {Q : Option β → σ → Prop}
    (I : Nat → σ → Prop) {lo n : Nat} (h0 : I lo s)
    (hbody : ∀ k, lo ≤ k → k < lo + n → ∀ s, I k s →
      Ends (body k) s (fun r s' => (r = none → I (k + 1) s') ∧ (r ≠ none → Q r s')) C)
    (hend : ∀ s, I (lo + n) s → Q none s) : Ends (untilSome body (List.range' lo n)) s Q C := by
  induction n generalizing lo s with
  | zero => exact hend s h0
  | succ n ih =>
    rw [List.range'_succ, untilSome, ends_bind]
    refine (hbody lo (Nat.le_refl lo) (by omega) s h0).imp ?_
    rintro (_ | b) s' ⟨hnone, hsome⟩
    · refine ih (hnone rfl) (fun k hk hk' => hbody k (by omega) (by omega)) fun s h => ?_
      exact hend s (by rwa [show lo + (n + 1) = lo + 1 + n by omega])
    · exact hsome (Option.some_ne_none b)

/-- **The invariant rule of a loop that runs to its end.** -/
theorem ends_forM {body : Nat → Fallible ε σ PUnit} {Q : PUnit → σ → Prop} (I : Nat → σ → Prop)
    {lo n : Nat} (h0 : I lo s)
    (hbody : ∀ k, lo ≤ k → k < lo + n → ∀ s, I k s → Ends (body k) s (fun _ => I (k + 1)) C)
    (hend : ∀ s, I (lo + n) s → Q ⟨⟩ s) : Ends ((List.range' lo n).forM body) s Q C := by
  induction n generalizing lo s with
  | zero => exact hend s h0
  | succ n ih =>
    rw [List.range'_succ]
    show Ends (body lo >>= fun _ => (List.range' (lo + 1) n).forM body) s Q C
    rw [ends_bind]
    refine (hbody lo (Nat.le_refl lo) (by omega) s h0).imp (fun _ s' h => ?_)
    refine ih h (fun k hk hk' => hbody k (by omega) (by omega)) fun s h => ?_
    exact hend s (by rwa [show lo + (n + 1) = lo + 1 + n by omega])

/-- **The invariant rule of a loop over any list**: the invariant is indexed by what is left. -/
theorem ends_forM_list {ι : Type*} {body : ι → Fallible ε σ PUnit} {Q : PUnit → σ → Prop}
    (I : List ι → σ → Prop) {l : List ι} (h0 : I l s)
    (hbody : ∀ a l s, I (a :: l) s → Ends (body a) s (fun _ => I l) C)
    (hend : ∀ s, I [] s → Q ⟨⟩ s) : Ends (l.forM body) s Q C := by
  induction l generalizing s with
  | nil => exact hend s h0
  | cons a l ih =>
    show Ends (body a >>= fun _ => l.forM body) s Q C
    rw [ends_bind]
    exact (hbody a l s h0).imp (fun _ s' h => ih h)

@[simp] theorem ends_zoom {τ : Type u} {get : σ → τ} {set : τ → σ → σ} {m : Fallible ε τ α} :
    Ends (zoom get set m) s Q C ↔
      Ends m (get s) (fun a t => Q a (set t s)) fun e t => C e (set t s) := by
  have h : exec (zoom get set m) s = ((exec m (get s)).1, set (exec m (get s)).2 s) := rfl
  rw [Ends, Ends, h]
  rcases exec m (get s) with ⟨e | a, t⟩ <;> rfl

theorem Ends.and_returns (h : Ends m s Q C) :
    Ends m s (fun a s' => Q a s' ∧ Returns m s a s') C := by
  unfold Ends Returns at *
  split at h
  · exact ⟨h, ‹_›⟩
  · exact h

theorem Ends.exists_of_no_stop (h : Ends m s Q fun _ _ => False) : ∃ a s', Q a s' := by
  unfold Ends at h
  split at h
  · exact ⟨_, _, h⟩
  · exact h.elim

theorem ends_of_forall_returns (hQ : ∀ a s', Returns m s a s' → Q a s') (hC : ∀ e s', C e s') :
    Ends m s Q C := by
  unfold Ends
  split
  · exact hQ _ _ ‹_›
  · exact hC _ _

theorem Ends.of_returns {a : α} {s' : σ} (h : Ends m s Q C) (hm : Returns m s a s') : Q a s' := by
  rw [Ends, show exec m s = (.ok a, s') from hm] at h
  exact h

end

end Foundation
