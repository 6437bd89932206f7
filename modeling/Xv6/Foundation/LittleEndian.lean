import Mathlib.Data.Nat.ModEq
import Mathlib.Tactic.Ring
import Mathlib.Tactic.NormNum

/-! # Little-endian numbers in byte arrays

A byte array is a function from positions to bytes. `numAt` reads the number of `w` bytes that
starts at a position, `putNum` stores one. The bytes of a number are `byteOf`.

* **`byteOf_numAt`**, **`numAt_putNum_self`** — reading after storing, in both directions.
* **`byteOf_eq_iff_modEq`** — two numbers agree on their first bytes exactly if they are
  congruent. -/

namespace Foundation

variable {b b' : Nat → UInt8} {i j k w x y : Nat}

/-- Byte `k` of the number `x`. -/
def byteOf (x k : Nat) : UInt8 := UInt8.ofNat (x / 256 ^ k)

/-- The number in the `w` bytes from position `i` on. -/
def numAt (b : Nat → UInt8) (i : Nat) : Nat → Nat
  | 0 => 0
  | w + 1 => (b i).toNat + 256 * numAt b (i + 1) w

/-- Store the number `x` into the `w` bytes from position `i` on. -/
def putNum (b : Nat → UInt8) (i w x : Nat) : Nat → UInt8 :=
  fun k => if i ≤ k ∧ k < i + w then byteOf x (k - i) else b k

/-! ## The bytes of a number -/

theorem byteOf_zero (x : Nat) : byteOf x 0 = UInt8.ofNat x := by
  simp [byteOf]

theorem byteOf_succ (x k : Nat) : byteOf x (k + 1) = byteOf (x / 256) k := by
  rw [byteOf, byteOf, Nat.div_div_eq_div_mul, pow_succ']

theorem toNat_byteOf_zero (x : Nat) : (byteOf x 0).toNat = x % 256 := by
  rw [byteOf_zero, UInt8.toNat_ofNat']

theorem byteOf_mod (hk : k < w) : byteOf (x % 256 ^ w) k = byteOf x k := by
  induction k generalizing x w with
  | zero =>
    obtain ⟨w, rfl⟩ := Nat.exists_eq_succ_of_ne_zero (Nat.ne_of_gt hk)
    apply UInt8.toNat_inj.1
    rw [toNat_byteOf_zero, toNat_byteOf_zero, pow_succ', Nat.mod_mul_right_mod]
  | succ k ih =>
    obtain ⟨w, rfl⟩ := Nat.exists_eq_succ_of_ne_zero (Nat.ne_of_gt (Nat.zero_lt_of_lt hk))
    rw [byteOf_succ, byteOf_succ, pow_succ', Nat.mod_mul_right_div_self]
    exact ih (Nat.lt_of_succ_lt_succ hk)

/-- **Two numbers agree on their first `w` bytes** exactly if they are congruent. -/
theorem byteOf_eq_iff_modEq : (∀ k < w, byteOf x k = byteOf y k) ↔ x ≡ y [MOD 256 ^ w] := by
  constructor
  · intro h
    induction w generalizing x y with
    | zero =>
      rw [pow_zero]
      exact Nat.modEq_one
    | succ w ih =>
      have hlow : x % 256 = y % 256 := by
        rw [← toNat_byteOf_zero, ← toNat_byteOf_zero, h 0 (Nat.succ_pos w)]
      have hhigh : x / 256 % 256 ^ w = y / 256 % 256 ^ w := by
        apply ih
        intro k hk
        rw [← byteOf_succ, ← byteOf_succ]
        exact h (k + 1) (Nat.succ_lt_succ hk)
      show x % 256 ^ (w + 1) = y % 256 ^ (w + 1)
      rw [pow_succ', Nat.mod_mul, Nat.mod_mul, hlow, hhigh]
  · intro h k hk
    rw [← byteOf_mod hk, ← byteOf_mod (x := y) hk]
    exact congrArg (byteOf · k) h

/-! ## Reading -/

theorem numAt_succ (b : Nat → UInt8) (i w : Nat) :
    numAt b i (w + 1) = (b i).toNat + 256 * numAt b (i + 1) w := rfl

theorem numAt_lt (b : Nat → UInt8) (i w : Nat) : numAt b i w < 256 ^ w := by
  induction w generalizing i with
  | zero => exact Nat.one_pos
  | succ w ih =>
    have hlow := (b i).toNat_lt
    have hhigh := ih (i + 1)
    rw [numAt_succ, pow_succ']
    omega

theorem numAt_congr (h : ∀ k < w, b (i + k) = b' (j + k)) : numAt b i w = numAt b' j w := by
  induction w generalizing i j with
  | zero => rfl
  | succ w ih =>
    rw [numAt_succ, numAt_succ, ih fun k hk => ?_]
    · have h0 := h 0 (Nat.succ_pos w)
      rw [Nat.add_zero, Nat.add_zero] at h0
      rw [h0]
    · have := h (k + 1) (Nat.succ_lt_succ hk)
      rwa [← Nat.add_assoc, ← Nat.add_assoc, Nat.add_right_comm, Nat.add_right_comm j] at this

/-- **The bytes of a number that was read** are those of the array. -/
theorem byteOf_numAt (hk : k < w) : byteOf (numAt b i w) k = b (i + k) := by
  induction k generalizing i w with
  | zero =>
    obtain ⟨w, rfl⟩ := Nat.exists_eq_succ_of_ne_zero (Nat.ne_of_gt hk)
    apply UInt8.toNat_inj.1
    rw [toNat_byteOf_zero, numAt_succ, Nat.add_mul_mod_self_left, Nat.add_zero]
    exact Nat.mod_eq_of_lt (b i).toNat_lt
  | succ k ih =>
    obtain ⟨w, rfl⟩ := Nat.exists_eq_succ_of_ne_zero (Nat.ne_of_gt (Nat.zero_lt_of_lt hk))
    rw [byteOf_succ, numAt_succ, Nat.add_mul_div_left _ _ (by norm_num),
      Nat.div_eq_of_lt (b i).toNat_lt, Nat.zero_add, ih (Nat.lt_of_succ_lt_succ hk)]
    congr 1
    omega

theorem numAt_of_bytes (h : ∀ k < w, b (i + k) = byteOf x k) : numAt b i w = x % 256 ^ w := by
  have hmod : numAt b i w ≡ x [MOD 256 ^ w] := by
    rw [← byteOf_eq_iff_modEq]
    intro k hk
    rw [byteOf_numAt hk, h k hk]
  rw [← hmod, Nat.mod_eq_of_lt (numAt_lt b i w)]

/-! ## Storing -/

theorem putNum_inside (hk : k < w) : putNum b i w x (i + k) = byteOf x k := by
  rw [putNum, if_pos (by omega), Nat.add_sub_cancel_left]

theorem putNum_outside (hk : k < i ∨ i + w ≤ k) : putNum b i w x k = b k := by
  rw [putNum, if_neg (by omega)]

theorem numAt_putNum_self : numAt (putNum b i w x) i w = x % 256 ^ w :=
  numAt_of_bytes fun _ hk => putNum_inside hk

theorem putNum_numAt : putNum b i w (numAt b i w) = b := by
  funext k
  by_cases hk : i ≤ k ∧ k < i + w
  · obtain ⟨k, rfl⟩ := Nat.exists_eq_add_of_le hk.1
    rw [putNum_inside (by omega), byteOf_numAt (by omega)]
  · exact putNum_outside (by omega)

theorem numAt_putNum_of_disjoint {v : Nat} (h : j + v ≤ i ∨ i + w ≤ j) :
    numAt (putNum b i w x) j v = numAt b j v :=
  numAt_congr fun k hk => putNum_outside (by omega)

end Foundation
