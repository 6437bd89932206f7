import Mathlib.Data.List.Induction
import Mathlib.Data.List.Nodup

/-! # Loops over a table

A loop that visits the entries of a table in order is a `foldl` over the list of indices. Three
rules cover the loops that change the table as they go:

* **`foldl_keeps`** — what every iteration keeps is kept by the loop;
* **`foldl_visited`** — the loop rule in which the invariant speaks of the indices visited so far;
* **`foldl_entry`** — if the iteration at `i` rewrites entry `i` by `g i` and leaves every other
  entry alone, the loop rewrites each visited entry once. -/

namespace Foundation

variable {σ ι β : Type*}

variable {f : σ → ι → σ}

/-- **Loop invariant.** A predicate kept by every iteration holds after the loop. -/
theorem foldl_keeps (P : σ → Prop) (hf : ∀ s i, P s → P (f s i)) :
    ∀ (l : List ι) {s : σ}, P s → P (l.foldl f s) := by
  intro l
  induction l with
  | nil => exact fun h => h
  | cons i l ih => exact fun h => ih (hf _ i h)

/-- **Loop invariant over the visited indices.** If `R` holds before the loop and each iteration at
a new index extends it, `R` holds of the whole list after a loop over distinct indices. -/
theorem foldl_visited (R : List ι → σ → Prop) (hf : ∀ l i s, i ∉ l → R l s → R (l ++ [i]) (f s i)) :
    ∀ {l : List ι} {s : σ}, l.Nodup → R [] s → R l (l.foldl f s) := by
  intro l
  induction l using List.reverseRecOn with
  | nil => exact fun _ h => h
  | append_singleton l i ih =>
    intro s hl h
    have hi : i ∉ l := fun hmem => (List.nodup_append.mp hl).2.2 i hmem i (by simp) rfl
    rw [List.foldl_append, List.foldl_cons, List.foldl_nil]
    exact hf l i _ hi (ih (List.nodup_append.mp hl).1 h)

/-- **A loop of local rewrites.** Let `P` hold of the start and be kept by every iteration. If
under `P` the iteration at `i` takes entry `i` to `g i` of it and no other entry is touched, then
after the loop over distinct indices each visited entry was rewritten exactly once. -/
theorem foldl_entry [DecidableEq ι] (entry : σ → ι → β) (g : ι → β → β) (P : σ → Prop)
    (hP : ∀ s i, P s → P (f s i)) (hself : ∀ s i, P s → entry (f s i) i = g i (entry s i))
    (hother : ∀ s i j, P s → j ≠ i → entry (f s i) j = entry s j) :
    ∀ (l : List ι) {s : σ}, l.Nodup → P s → ∀ j,
      entry (l.foldl f s) j = if j ∈ l then g j (entry s j) else entry s j := by
  intro l
  induction l with
  | nil => intro s _ _ j; simp
  | cons i l ih =>
    intro s hl hs j
    obtain ⟨hi, hl⟩ := List.nodup_cons.mp hl
    rw [List.foldl_cons, ih hl (hP s i hs) j]
    by_cases hji : j = i
    · subst hji
      rw [if_neg hi, if_pos List.mem_cons_self, hself s j hs]
    · rw [hother s i j hs hji]
      simp [List.mem_cons, hji]

end Foundation
