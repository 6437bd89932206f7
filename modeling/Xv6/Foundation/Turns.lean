import Mathlib.Data.Nat.Init
import Mathlib.Tactic.SplitIfs

/-! # Taking turns on a circle

Places on a circle of `N` places, a pointer that moves forward on it, and the order in which the
pointer meets the places.

* **`ahead N a b`** — the number of steps from `a` to `b`;
* **`ahead_lt_of_turns`** — as long as the pointer never passes a place `q`, whoever is behind `q`
  stays behind `q`. -/

namespace Foundation

/-- The number of steps forward from `a` to `b` on a circle of `N` places. -/
def ahead (N a b : Nat) : Nat := if a ≤ b then b - a else b + N - a

variable {N a b c x : Nat}

@[simp] theorem ahead_zero (N b : Nat) : ahead N 0 b = b := by
  rw [ahead, if_pos b.zero_le, Nat.sub_zero]

theorem ahead_inj (ha : a < N) (hb : b < N) (hx : x < N) (h : ahead N a b = ahead N a x) :
    b = x := by
  unfold ahead at h
  split_ifs at h <;> omega

/-- Moving forward, but not past `x`, shortens the way to `x` by the steps that were made. -/
theorem ahead_add (ha : a < N) (hb : b < N) (hx : x < N) (h : ahead N a b ≤ ahead N a x) :
    ahead N a b + ahead N b x = ahead N a x := by
  unfold ahead at *
  split_ifs at * <;> omega

theorem ahead_lt_last (hb : b < N) (hx : x < N) (hne : x ≠ b) :
    ahead N ((b + 1) % N) x < ahead N ((b + 1) % N) b := by
  rcases Nat.lt_or_ge (b + 1) N with hlt | hge
  · rw [Nat.mod_eq_of_lt hlt]
    unfold ahead
    split_ifs <;> omega
  · obtain rfl : N = b + 1 := by omega
    rw [Nat.mod_self, ahead_zero, ahead_zero]
    omega

/-- **Turns.** If a pointer moves forward and never passes `q` between the times `s` and `t`, then
what was behind `q` at the time `s` is behind `q` at the time `t`. -/
theorem ahead_lt_of_turns {ptr : Nat → Nat} {p q s t : Nat} (hp : p < N) (hq : q < N) (hst : s ≤ t)
    (hptr : ∀ n, s ≤ n → n ≤ t → ptr n < N)
    (hstep : ∀ n, s ≤ n → n < t → ahead N (ptr n) (ptr (n + 1)) ≤ ahead N (ptr n) q)
    (h : ahead N (ptr s) q < ahead N (ptr s) p) : ahead N (ptr t) q < ahead N (ptr t) p := by
  induction t, hst using Nat.le_induction with
  | base => exact h
  | succ t hst ih =>
    have ih := ih (fun n hn hn' => hptr n hn (by omega)) fun n hn hn' => hstep n hn (by omega)
    have ht := hptr t hst (by omega)
    have ht' := hptr (t + 1) (by omega) (Nat.le_refl _)
    have hle := hstep t hst (by omega)
    -- both ways become shorter by what the pointer has moved
    have hway := ahead_add ht ht' hq hle
    have hway' := ahead_add ht ht' hp (by omega)
    omega

end Foundation
