import Mathlib.Data.List.Nodup

/-! # Replaying writes

A store is a function from addresses to values. `install d ws` carries out a list of writes in
order. When no address is written twice, `install` is a lookup (`install_of_mem`,
`install_of_notMem`), and a store that differs only in writes that were carried out already ends up
the same (`install_eq`): replay is idempotent, however often it was interrupted before. -/

namespace Foundation

variable {α β : Type*} [DecidableEq α]

/-- Write `v` at the address `a`. -/
def put (d : α → β) (a : α) (v : β) : α → β := fun x => if x = a then v else d x

@[simp] theorem put_self (d : α → β) (a : α) (v : β) : put d a v a = v := if_pos rfl

variable {d : α → β} {a : α} {ws : List (α × β)}

theorem put_of_ne {x : α} {v : β} (h : x ≠ a) : put d a v x = d x := if_neg h

/-- Carry out a list of writes in order. -/
def install (d : α → β) (ws : List (α × β)) : α → β := ws.foldl (fun d w => put d w.1 w.2) d

@[simp] theorem install_nil (d : α → β) : install d [] = d := rfl

@[simp] theorem install_cons (d : α → β) (w : α × β) (ws : List (α × β)) :
    install d (w :: ws) = install (put d w.1 w.2) ws := rfl

theorem install_of_notMem (h : a ∉ ws.map Prod.fst) : install d ws a = d a := by
  induction ws generalizing d with
  | nil => rfl
  | cons w ws ih =>
    simp only [List.map_cons, List.mem_cons, not_or] at h
    rw [install_cons, ih h.2, put_of_ne h.1]

theorem install_of_mem (hnd : (ws.map Prod.fst).Nodup) {w : α × β} (hw : w ∈ ws) :
    install d ws w.1 = w.2 := by
  induction ws generalizing d with
  | nil => simp at hw
  | cons v ws ih =>
    obtain ⟨hv, hnd⟩ := List.nodup_cons.1 hnd
    rw [install_cons]
    rcases List.mem_cons.1 hw with rfl | hw
    · rw [install_of_notMem hv, put_self]
    · exact ih hnd hw

/-- **Replay is determined** by the unwritten addresses. -/
theorem install_eq {d' : α → β} (hnd : (ws.map Prod.fst).Nodup)
    (h : a ∉ ws.map Prod.fst → d a = d' a) : install d ws a = install d' ws a := by
  by_cases ha : a ∈ ws.map Prod.fst
  · obtain ⟨w, hw, rfl⟩ := List.mem_map.1 ha
    rw [install_of_mem hnd hw, install_of_mem hnd hw]
  · rw [install_of_notMem ha, install_of_notMem ha, h ha]

end Foundation
