import Mathlib.Algebra.BigOperators.Group.Finset.Basic
import Mathlib.Data.Fintype.Prod

/-! # Counting references

A table of pointers `m : α → Option β` and the number of its entries that point to an object.

* **`references_set`** — pointing an empty entry at an object adds one reference to it;
* **`references_clear`** — clearing an entry takes one reference from the object it pointed to;
* **`sum_change`** — a sum over all parties of which one term changes. -/

namespace Foundation

open Function

variable {α β : Type*} [Fintype α] [DecidableEq β]

/-- The number of entries that point to `b`. -/
def references (m : α → Option β) (b : β) : Nat :=
  (Finset.univ.filter fun a => m a = some b).card

variable {m : α → Option β} {a : α} {b : β}

theorem references_eq_zero : references m b = 0 ↔ ∀ a, m a ≠ some b := by
  simp [references, Finset.filter_eq_empty_iff]

theorem references_pos (h : m a = some b) : 0 < references m b := by
  rw [Nat.pos_iff_ne_zero, ne_eq, references_eq_zero]
  exact fun hnone => hnone a h

variable [DecidableEq α]

/-- **An empty entry that is set** adds a reference to its object. -/
theorem references_set (h : m a = none) (b' : β) :
    references (update m a (some b)) b' = references m b' + if b' = b then 1 else 0 := by
  unfold references
  split
  · subst b'
    have hset : (Finset.univ.filter fun x => update m a (some b) x = some b)
        = insert a (Finset.univ.filter fun x => m x = some b) := by
      ext x
      by_cases hx : x = a <;> simp [hx]
    rw [hset, Finset.card_insert_of_notMem (by simp [h])]
  · rename_i hne
    rw [Nat.add_zero]
    congr 1
    ext x
    by_cases hx : x = a
    · simp [hx, h, Ne.symm hne]
    · simp [hx]

/-- **An entry that is cleared** takes a reference from its object. -/
theorem references_clear (h : m a = some b) (b' : β) :
    references (update m a none) b' + (if b' = b then 1 else 0) = references m b' := by
  have hset := references_set (m := update m a none) (a := a) (b := b) (by simp) b'
  rw [update_idem, ← h, update_eq_self] at hset
  exact hset.symm

omit [DecidableEq β] in
theorem sum_change {f g : α → Nat} {a : α} (h : ∀ x ≠ a, g x = f x) :
    ∑ x, g x + f a = ∑ x, f x + g a := by
  have hrest : ∑ x ∈ Finset.univ.erase a, g x = ∑ x ∈ Finset.univ.erase a, f x :=
    Finset.sum_congr rfl fun x hx => h x (Finset.ne_of_mem_erase hx)
  rw [← Finset.add_sum_erase _ g (Finset.mem_univ a), ← Finset.add_sum_erase _ f
    (Finset.mem_univ a), hrest]
  omega

end Foundation
