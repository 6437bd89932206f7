import Mathlib.Data.Int.ConditionallyCompleteOrder
import Mathlib.Data.Int.Interval
import Mathlib.Data.Nat.Count
import Mathlib.Order.ConditionallyCompleteLattice.Indexed

/-! # Weighted draws

A list of items, each with a number of tickets, and a winning number: walk the list, subtracting
the tickets of each item, until the winner falls inside an item's share. The draw is fair: an item
wins for exactly as many numbers as it has tickets. -/

namespace Foundation

/-! ## Counting numbers -/

/-- The numbers below `n` that satisfy `P`, counted in the integers and in the naturals. -/
theorem card_filter_Ico (n : Nat) (P : Int → Prop) [DecidablePred P] :
    ((Finset.Ico 0 (n : Int)).filter P).card = Nat.count (fun w => P (w : Int)) n := by
  rw [Nat.count_eq_card_filter_range]
  refine Finset.card_nbij' Int.toNat (fun w => (w : Int)) ?_ ?_ ?_ ?_
  · intro x hx
    obtain ⟨⟨h0, hn⟩, hP⟩ : (0 ≤ x ∧ x < n) ∧ P x := by simpa using hx
    simp only [Finset.coe_filter, Finset.mem_range, Set.mem_ofPred_eq, Int.toNat_of_nonneg h0]
    exact ⟨by omega, hP⟩
  · intro w hw
    simpa using hw
  · intro x hx
    obtain ⟨⟨h0, -⟩, -⟩ : (0 ≤ x ∧ x < n) ∧ P x := by simpa using hx
    exact Int.toNat_of_nonneg h0
  · intro w _
    exact Int.toNat_natCast w

/-- Predicates that agree below `n` hold for the same number of numbers below `n`. -/
theorem count_congr {P Q : Nat → Prop} [DecidablePred P] [DecidablePred Q] {n : Nat}
    (h : ∀ w < n, (P w ↔ Q w)) : Nat.count P n = Nat.count Q n := by
  rw [Nat.count_eq_card_filter_range, Nat.count_eq_card_filter_range]
  congr 1
  exact Finset.filter_congr fun w hw => h w (Finset.mem_range.1 hw)

/-! ## The draw -/

variable {α : Type*}

/-- **The draw**: the item in whose share of the tickets the number `w` falls. -/
def draw (tickets : α → Nat) : List α → Nat → Option α
  | [], _ => none
  | a :: l, w => if w < tickets a then some a else draw tickets l (w - tickets a)

variable {l : List α} {w : Nat} {a : α}

theorem mem_of_draw {tickets : α → Nat} (h : draw tickets l w = some a) : a ∈ l := by
  induction l generalizing w with
  | nil => simp [draw] at h
  | cons b l ih =>
    rw [draw] at h
    split at h
    · simp [Option.some.inj h]
    · exact List.mem_cons_of_mem _ (ih h)

theorem exists_draw (tickets : α → Nat) (h : w < (l.map tickets).sum) :
    ∃ a, draw tickets l w = some a := by
  induction l generalizing w with
  | nil => simp at h
  | cons b l ih =>
    rw [draw]
    split
    · exact ⟨b, rfl⟩
    · refine ih ?_
      simp only [List.map_cons, List.sum_cons] at h
      omega

/-- **The share of an item**: it wins exactly for the numbers that start behind the tickets before
it and end with its own. -/
theorem draw_eq_some_iff {tickets : α → Nat} {l1 l2 : List α} (h1 : a ∉ l1) (h2 : a ∉ l2) :
    draw tickets (l1 ++ a :: l2) w = some a ↔
      (l1.map tickets).sum ≤ w ∧ w < (l1.map tickets).sum + tickets a := by
  induction l1 generalizing w with
  | nil =>
    rw [List.nil_append, draw, List.map_nil, List.sum_nil, Nat.zero_add]
    by_cases hw : w < tickets a
    · rw [if_pos hw]
      exact ⟨fun _ => ⟨w.zero_le, hw⟩, fun _ => rfl⟩
    · rw [if_neg hw]
      exact ⟨fun h => absurd (mem_of_draw h) h2, fun h => absurd h.2 hw⟩
  | cons b l1 ih =>
    obtain ⟨hab, h1⟩ := not_or.1 (mt List.mem_cons.2 h1)
    rw [List.cons_append, draw, List.map_cons, List.sum_cons]
    by_cases hw : w < tickets b
    · rw [if_pos hw]
      exact ⟨fun h => absurd (Option.some.inj h).symm hab, fun h => by omega⟩
    · rw [if_neg hw, ih h1]
      omega

theorem count_draw [DecidableEq α] (tickets : α → Nat) (hl : l.Nodup) (ha : a ∈ l) :
    Nat.count (fun w => draw tickets l w = some a) (l.map tickets).sum = tickets a := by
  induction l with
  | nil => simp at ha
  | cons b l ih =>
    rw [List.map_cons, List.sum_cons, Nat.count_add]
    have hrest : ∀ w, draw tickets (b :: l) (tickets b + w) = draw tickets l w := by
      intro w
      rw [draw, if_neg (by omega), Nat.add_sub_cancel_left]
    have hfirst : ∀ w < tickets b, draw tickets (b :: l) w = some b := by
      intro w hw
      rw [draw, if_pos hw]
    simp only [hrest]
    obtain ⟨hb, hl⟩ := List.nodup_cons.1 hl
    rcases List.mem_cons.1 ha with rfl | ha
    · -- the first item wins its own share and, by `Nodup`, nothing of the rest
      have h1 : Nat.count (fun w => draw tickets (a :: l) w = some a) (tickets a)
          = tickets a := by
        rw [Nat.count_iff_forall]
        exact fun w hw => hfirst w hw
      have h2 : Nat.count (fun w => draw tickets l w = some a) (l.map tickets).sum = 0 := by
        rw [Nat.count_iff_forall_not]
        exact fun w _ h => hb (mem_of_draw h)
      rw [h1, h2, Nat.add_zero]
    · have hab : b ≠ a := by rintro rfl; exact hb ha
      have h1 : Nat.count (fun w => draw tickets (b :: l) w = some a) (tickets b) = 0 := by
        rw [Nat.count_iff_forall_not]
        intro w hw h
        rw [hfirst w hw] at h
        exact hab (Option.some.inj h)
      rw [h1, Nat.zero_add]
      exact ih hl ha

end Foundation
