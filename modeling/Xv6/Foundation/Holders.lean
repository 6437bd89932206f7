import Xv6.Foundation.References

/-! # Locks and their holders

Objects `ι` with a lock each, and for every process and object the point of the code at which the
process uses the object. One process changes one object at a time, and what holds of an object
depends on where the holder of its lock is.

* **`holder`** — the point of the holder, and how a change at one process and object affects it;
* **`users`** — the uses at points of one kind, counted by `references`. -/

namespace Foundation

open Function

variable {P ι T : Type*}

/-- Where the holder of the lock of an object is; `free` if the lock is free. -/
def holder (free : T) (lock : ι → Option P) (point : P × ι → T) (e : ι) : T :=
  match lock e with
  | none => free
  | some p => point (p, e)

/-- The same with the lock `l` and the process `p` at `t`, if `o` says where the others are. -/
def holderOf [DecidableEq P] (free : T) (l : Option P) (p : P) (t : T) (o : P → T) : T :=
  match l with
  | none => free
  | some q => if q = p then t else o q

/-- The uses at points of a kind. -/
def users (φ : T → Bool) (point : P × ι → T) (x : P × ι) : Option ι :=
  if φ (point x) then some x.2 else none

section

variable [DecidableEq P] {free : T} {lock : ι → Option P} {point : P × ι → T} {p : P} {e : ι}

omit [DecidableEq P] in
theorem holder_congr {lock' : ι → Option P} {point' : P × ι → T} (hlock : lock' e = lock e)
    (hpoint : ∀ p, point' (p, e) = point (p, e)) :
    holder free lock' point' e = holder free lock point e := by
  unfold holder
  rw [hlock]
  split
  · rfl
  · rw [hpoint]

theorem holder_eq_holderOf (p : P) :
    holder free lock point e = holderOf free (lock e) p (point (p, e)) fun q => point (q, e) := by
  unfold holder holderOf
  split
  · rfl
  · split
    · rename_i heq
      rw [heq]
    · rfl

theorem holderOf_self {o : P → T} {t : T} : holderOf free (some p) p t o = t := if_pos rfl

variable [DecidableEq ι]

theorem holder_update_self {l : Option P} {t : T} :
    holder free (update lock e l) (update point (p, e) t) e
      = holderOf free l p t fun q => point (q, e) := by
  unfold holder holderOf
  rw [update_self]
  split
  · rfl
  · split
    · rename_i heq
      rw [heq, update_self]
    · rename_i hne
      rw [update_of_ne fun heq => hne (Prod.mk.inj heq).1]

theorem holder_update_of_ne {e' : ι} (he : e' ≠ e) {l : Option P} {t : T} :
    holder free (update lock e l) (update point (p, e) t) e'
      = holder free lock point e' := by
  unfold holder
  rw [update_of_ne he]
  split
  · rfl
  · rw [update_of_ne fun heq => he (Prod.mk.inj heq).2]

end

section

variable [Fintype P] [Fintype ι] [DecidableEq ι] {φ : T → Bool} {point : P × ι → T} {p : P} {e : ι}

theorem references_users_eq_zero (h : references (users φ point) e = 0) (p : P) :
    φ (point (p, e)) = false := by
  have hnot := references_eq_zero.1 h (p, e)
  simpa [users] using hnot

theorem references_users_pos (h : φ (point (p, e)) = true) : 0 < references (users φ point) e :=
  references_pos (a := (p, e)) (if_pos h)

theorem references_users_congr {point' : P × ι → T} (h : ∀ p, point' (p, e) = point (p, e)) :
    references (users φ point') e = references (users φ point) e := by
  unfold references
  congr 1
  ext ⟨p, e'⟩
  rcases eq_or_ne e' e with rfl | he
  · simp [users, h]
  · simp [users, he]

variable [DecidableEq P]

/-- **The count of users** when one process moves at one object. -/
theorem references_users_update (φ : T → Bool) (point : P × ι → T) (p : P) (e : ι)
    (t : T) (e' : ι) :
    references (users φ (update point (p, e) t)) e'
        + (if e' = e then (φ (point (p, e))).toNat else 0)
      = references (users φ point) e' + if e' = e then (φ t).toNat else 0 := by
  have hput : users φ (update point (p, e) t)
      = update (users φ point) (p, e) (if φ t then some e else none) := by
    funext x
    by_cases hx : x = (p, e)
    · simp [users, hx]
    · simp [users, hx]
  have hold : users φ point (p, e) = if φ (point (p, e)) then some e else none := rfl
  rw [hput]
  cases hpt : φ (point (p, e)) <;> cases hpt' : φ t <;>
    simp only [hpt, if_true, Bool.false_eq_true, if_false, Bool.toNat_true, Bool.toNat_false,
      ite_self] at hold ⊢
  · rw [← hold, update_eq_self]
  · rw [references_set hold, Nat.add_zero]
  · rw [references_clear hold, Nat.add_zero]
  · rw [← hold, update_eq_self]

end

end Foundation
