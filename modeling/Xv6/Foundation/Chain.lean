import Mathlib.Data.List.Nodup

/-! # Linked cycles

Nodes with one pointer each. `Chain next a l b` says that the pointers lead from `a` through the
nodes `l` to `b`; a cycle through `a` is a chain from `a` to `a`.

* **`Chain.rotate`** — a cycle may be read from any of its nodes;
* **`Chain.redirect`** — what a new pointer of the last node does;
* **`Chain.pred_unique`** — there is one way to come to a node. -/

namespace Foundation

open Function

variable {α : Type*} {next next' : α → α} {a b c x y : α} {l l1 l2 : List α}

/-- The pointers lead from `a` through the nodes `l` to `b`. -/
def Chain (next : α → α) : α → List α → α → Prop
  | a, [], b => next a = b
  | a, x :: l, b => next a = x ∧ Chain next x l b

/-- The last node of a chain, before its end. -/
def endOf (a : α) (l : List α) : α := l.getLastD a

@[simp] theorem endOf_nil : endOf a [] = a := rfl

@[simp] theorem endOf_cons : endOf a (x :: l) = endOf x l := by
  cases l <;> rfl

@[simp] theorem endOf_concat : endOf a (l ++ [x]) = x := by
  simp [endOf]

theorem endOf_mem : endOf a l ∈ a :: l := by
  induction l generalizing a with
  | nil => exact List.mem_singleton.2 rfl
  | cons x l ih =>
    rw [endOf_cons]
    exact List.mem_cons_of_mem a ih

namespace Chain

theorem append_iff : Chain next a (l1 ++ x :: l2) b ↔ Chain next a l1 x ∧ Chain next x l2 b := by
  induction l1 generalizing a with
  | nil => exact Iff.rfl
  | cons y l1 ih =>
    rw [List.cons_append, Chain, Chain, ih]
    exact and_assoc.symm

section

variable (h : Chain next a l b)

include h

theorem congr (hnext : ∀ x ∈ a :: l, next' x = next x) : Chain next' a l b := by
  induction l generalizing a with
  | nil => exact (hnext a (by simp)).trans h
  | cons x l ih =>
    refine ⟨(hnext a (by simp)).trans h.1, ih h.2 fun y hy => hnext y ?_⟩
    exact List.mem_cons_of_mem a hy

omit h in
theorem split (h : Chain next a (l1 ++ l2) b) :
    Chain next a l1 (next (endOf a l1)) ∧ Chain next (endOf a l1) l2 b := by
  induction l1 generalizing a with
  | nil => exact ⟨rfl, h⟩
  | cons x l1 ih =>
    rw [endOf_cons]
    exact ⟨⟨h.1, (ih h.2).1⟩, (ih h.2).2⟩

theorem exists_suffix (hx : x ∈ a :: l) :
    ∃ m1 m2, a :: l = m1 ++ x :: m2 ∧ Chain next x m2 b ∧ endOf x m2 = endOf a l := by
  induction l generalizing a with
  | nil =>
    obtain rfl := List.mem_singleton.1 hx
    exact ⟨[], [], rfl, h, rfl⟩
  | cons y l ih =>
    rcases List.mem_cons.1 hx with rfl | hx
    · exact ⟨[], y :: l, rfl, h, rfl⟩
    · obtain ⟨m1, m2, hm, hchain, hend⟩ := ih h.2 hx
      refine ⟨a :: m1, m2, ?_, hchain, ?_⟩
      · rw [hm, List.cons_append]
      · rw [endOf_cons, hend]

omit h in
/-- **A cycle may be read from any of its nodes.** -/
theorem rotate (h : Chain next a (l1 ++ x :: l2) a) : Chain next x (l2 ++ a :: l1) x := by
  obtain ⟨h1, h2⟩ := append_iff.1 h
  exact append_iff.2 ⟨h2, h1⟩

/-- **The last node gets another pointer.** -/
theorem redirect [DecidableEq α] (hnodup : (a :: l).Nodup) :
    Chain (update next (endOf a l) c) a l c := by
  induction l generalizing a with
  | nil => exact update_self ..
  | cons x l ih =>
    obtain ⟨ha, hl⟩ := List.nodup_cons.1 hnodup
    rw [endOf_cons]
    have hne : a ≠ endOf x l := fun heq => ha (heq ▸ endOf_mem)
    exact ⟨(update_of_ne hne _ _).trans h.1, ih h.2 hl⟩

theorem update_of_notMem [DecidableEq α] (hx : x ∉ a :: l) :
    Chain (update next x c) a l b := by
  refine h.congr fun y hy => update_of_ne ?_ _ _
  rintro rfl
  exact hx hy

theorem replace_head [DecidableEq α] (hx : x ∉ l) :
    Chain (update next x (next a)) x l b := by
  cases l with
  | nil => exact (update_self ..).trans h
  | cons y l => exact ⟨(update_self ..).trans h.1, h.2.update_of_notMem hx⟩

theorem next_mem (hx : x ∈ a :: l) : next x ∈ l ++ [b] := by
  induction l generalizing a with
  | nil =>
    obtain rfl := List.mem_singleton.1 hx
    rw [h]
    exact List.mem_singleton.2 rfl
  | cons z l ih =>
    rcases List.mem_cons.1 hx with rfl | hx
    · rw [h.1]
      exact List.mem_cons_self
    · exact List.mem_cons_of_mem z (ih h.2 hx)

theorem next_inj (hnodup : (l ++ [b]).Nodup) (hx : x ∈ a :: l)
    (hy : y ∈ a :: l) (heq : next x = next y) : x = y := by
  induction l generalizing a with
  | nil => rw [List.mem_singleton.1 hx, List.mem_singleton.1 hy]
  | cons z l ih =>
    obtain ⟨hz, hl⟩ := List.nodup_cons.1 hnodup
    have hno : ∀ {w}, w ∈ z :: l → next w ≠ z := fun hw heq => hz (heq ▸ h.2.next_mem hw)
    rcases List.mem_cons.1 hx with hxa | hxl <;> rcases List.mem_cons.1 hy with hya | hyl
    · exact hxa.trans hya.symm
    · rw [hxa, h.1] at heq
      exact absurd heq.symm (hno hyl)
    · rw [hya, h.1] at heq
      exact absurd heq (hno hxl)
    · exact ih h.2 hl hxl hyl

end

/-- **There is one way to come to a node** of a cycle. -/
theorem pred_unique (h : Chain next a (l1 ++ y :: l2) a) (hnodup : (a :: (l1 ++ y :: l2)).Nodup)
    (hx : x ∈ a :: (l1 ++ y :: l2)) (hy : next x = y) : x = endOf a l1 := by
  have hnodup' : ((l1 ++ y :: l2) ++ [a]).Nodup :=
    (List.perm_append_singleton a _).nodup_iff.2 hnodup
  refine h.next_inj hnodup' hx ?_ (hy.trans h.split.2.1.symm)
  rcases List.mem_cons.1 (endOf_mem (a := a) (l := l1)) with heq | hmem
  · rw [heq]
    exact List.mem_cons_self
  · exact List.mem_cons_of_mem a (List.mem_append_left _ hmem)

end Chain

end Foundation
