import Mathlib.Data.List.Infix
import Mathlib.Data.Nat.ModEq

/-! # Circular buffers with free-running counters

A buffer of fixed size holds the end of a sequence that only grows: element `k` is in slot
`k % size`. The counters that point into it count for ever in machine words, and are compared and
subtracted there.

* **`wrap_inj`**, **`wrapSub_wrap`** — counters that are not far apart compare and subtract as the
  numbers they stand for.
* **`Circular.push`** — a new element does not hit one that is still held. -/

namespace Foundation

/-! ## Counters -/

/-- A number in a machine word. Irreducible, so that no unification computes with the range. -/
@[irreducible]
def wrap (n : Nat) : Nat := n % 2 ^ 32

theorem wrap_zero : wrap 0 = 0 := by
  unfold wrap
  rfl

theorem wrap_wrap_add (n m : Nat) : wrap (wrap n + m) = wrap (n + m) := by
  unfold wrap
  omega

theorem wrap_mod {size : Nat} (h : size ∣ 2 ^ 32) (n : Nat) : wrap n % size = n % size := by
  unfold wrap
  exact Nat.mod_mod_of_dvd n h

theorem wrap_inj {a b : Nat} (hle : a ≤ b) (hlt : b < a + 2 ^ 32) : wrap a = wrap b ↔ a = b := by
  unfold wrap
  omega

/-- The difference of two machine words, with a borrow. -/
@[irreducible]
def wrapSub (b a : Nat) : Nat := if a ≤ b then b - a else b + 2 ^ 32 - a

theorem wrapSub_wrap {a b : Nat} (hle : a ≤ b) (hlt : b < a + 2 ^ 32) :
    wrapSub (wrap b) (wrap a) = b - a := by
  unfold wrapSub wrap
  split
  · omega
  · omega

theorem wrapSub_one (n : Nat) : wrapSub (wrap (n + 1)) 1 = wrap n := by
  unfold wrapSub wrap
  split
  · omega
  · omega

/-! ## Buffers -/

variable {α : Type} {size start start' : Nat} {buf : Nat → α} {l l' : List α}

/-- The buffer holds the sequence from `start` on. -/
def Circular (size : Nat) (buf : Nat → α) (l : List α) (start : Nat) : Prop :=
  ∀ k, start ≤ k → ∀ h : k < l.length, buf (k % size) = l[k]

namespace Circular

theorem nil : Circular size buf [] start := fun k _ hk => absurd hk (Nat.not_lt_zero k)

section

variable (h : Circular size buf l start)

include h

theorem forget (hle : start ≤ start') :
    Circular size buf l start' :=
  fun k hk => h k (hle.trans hk)

theorem shorten (hl : l' <+: l) : Circular size buf l' start := by
  intro k hk hk'
  rw [hl.getElem hk']
  exact h k hk _

/-- **A new element** goes to a slot that is free. -/
theorem push (hroom : l.length < start + size) (a : α) :
    Circular size (Function.update buf (l.length % size) a) (l ++ [a]) start := by
  intro k hk hk'
  rw [List.length_append, List.length_singleton] at hk'
  rcases Nat.lt_succ_iff_lt_or_eq.1 hk' with hlt | rfl
  · -- two slots that are less than `size` apart
    have hne : k % size ≠ l.length % size := by
      intro heq
      have hdvd : size ∣ l.length - k := (Nat.modEq_iff_dvd' hlt.le).1 heq
      have := Nat.le_of_dvd (by omega) hdvd
      omega
    rw [Function.update_of_ne hne, List.getElem_append_left hlt]
    exact h k hk hlt
  · rw [Function.update_self]
    simp

end

end Circular

end Foundation
