import Mathlib.Algebra.Order.Group.Nat
import Mathlib.Data.Finset.Card

/-! # Blocks handed out through a bitmap

A pool of numbered blocks below a limit. A bitmap `used` says which of them are taken, and a map
`own` from slots to block numbers says where they went; the number 0 stands for an empty slot. The
blocks in `base` are never handed out.

* **`Exact`** — bitmap and slots agree: no block is in two slots, and a bit is set exactly for the
  blocks of `base` and the blocks in some slot. Taking a free block into an empty slot keeps it
  (**`Exact.take`**), and so does giving back what a slot holds (**`Exact.give`**).
* **`Extends`** — what any number of takings leaves: the slots that were filled are as before, and
  every slot filled in between has cost one free block. -/

namespace Foundation

open Function

variable {κ : Type*}

/-- The number of blocks below the limit that are free. -/
def freeBlocks (limit : Nat) (used : Nat → Bool) : Nat :=
  ((Finset.range limit).filter fun b => used b = false).card

/-- The number of slots in `S` that are empty. -/
def missing (own : κ → Nat) (S : Finset κ) : Nat := (S.filter fun k => own k = 0).card

/-- **Bitmap and slots agree.** -/
structure Exact (base : Nat → Prop) (limit : Nat) (used : Nat → Bool) (own : κ → Nat) : Prop where
  /-- No block is in two slots. -/
  inj : ∀ {k l}, own k ≠ 0 → own k = own l → k = l
  /-- The bits that are set. -/
  used_iff : ∀ {b}, b < limit → (used b = true ↔ base b ∨ ∃ k, own k ≠ 0 ∧ own k = b)
  /-- A slot holds a block that may be handed out. -/
  not_base : ∀ {k}, own k ≠ 0 → ¬ base (own k)
  lt_limit : ∀ {k}, own k ≠ 0 → own k < limit

section

variable {limit b : Nat} {used : Nat → Bool} {own : κ → Nat} {k : κ} {S : Finset κ}

/-! ## Counting -/

theorem freeBlocks_pos : 0 < freeBlocks limit used ↔ ∃ b < limit, used b = false := by
  simp [freeBlocks, Finset.card_pos, Finset.Nonempty]

theorem freeBlocks_take (hb : b < limit) (hfree : used b = false) :
    freeBlocks limit (update used b true) + 1 = freeBlocks limit used := by
  have herase : ((Finset.range limit).filter fun x => update used b true x = false)
      = ((Finset.range limit).filter fun x => used x = false).erase b := by
    ext x
    by_cases hx : x = b <;> simp [hx]
  rw [freeBlocks, herase, freeBlocks]
  exact Finset.card_erase_add_one (by simp [hb, hfree])

theorem missing_pos (hk : k ∈ S) (hempty : own k = 0) : 0 < missing own S :=
  Finset.card_pos.2 ⟨k, by simp [hk, hempty]⟩

theorem missing_fill [DecidableEq κ] (hk : k ∈ S) (hempty : own k = 0) (hb : b ≠ 0) :
    missing (update own k b) S + 1 = missing own S := by
  have herase : (S.filter fun x => update own k b x = 0)
      = (S.filter fun x => own x = 0).erase k := by
    ext x
    by_cases hx : x = k <;> simp [hx, hb]
  rw [missing, herase, missing]
  exact Finset.card_erase_add_one (by simp [hk, hempty])

/-! ## Taking and giving back -/

namespace Exact

variable {base : Nat → Prop}

section

variable (h : Exact base limit used own)

include h

theorem used_own (hk : own k ≠ 0) : used (own k) = true :=
  (h.used_iff (h.lt_limit hk)).2 (.inr ⟨k, hk, rfl⟩)

theorem own_ne (hfree : used b = false) (hk : own k ≠ 0) :
    own k ≠ b := by
  rintro rfl
  rw [h.used_own hk] at hfree
  cases hfree

variable [DecidableEq κ]

/-- **A free block is taken** into an empty slot. -/
theorem take (hb : b < limit) (hfree : used b = false)
    (hempty : own k = 0) (h0 : b ≠ 0) :
    Exact base limit (update used b true) (update own k b) where
  inj := by
    intro x y hx heq
    by_cases hxk : x = k <;> by_cases hyk : y = k
    · rw [hxk, hyk]
    · simp only [hxk, update_self, update_of_ne hyk] at hx heq
      exact absurd heq.symm (h.own_ne hfree (heq ▸ hx))
    · simp only [hyk, update_self, update_of_ne hxk] at hx heq
      exact absurd heq (h.own_ne hfree hx)
    · simp only [update_of_ne hxk, update_of_ne hyk] at hx heq
      exact h.inj hx heq
  used_iff := by
    intro x hx
    by_cases hxb : x = b
    · simp only [hxb, update_self, true_iff]
      exact .inr ⟨k, by simpa using h0, update_self k b own⟩
    · rw [update_of_ne hxb, h.used_iff hx]
      refine or_congr_right ⟨?_, ?_⟩
      · rintro ⟨y, hy, rfl⟩
        have hyk : y ≠ k := fun heq => hy (heq ▸ hempty)
        exact ⟨y, by rwa [update_of_ne hyk], update_of_ne hyk b own⟩
      · rintro ⟨y, hy, rfl⟩
        have hyk : y ≠ k := by
          rintro rfl
          exact hxb (update_self y b own)
        rw [update_of_ne hyk] at hy ⊢
        exact ⟨y, hy, rfl⟩
  not_base := by
    intro x hx
    by_cases hxk : x = k
    · rw [hxk, update_self]
      intro hbase
      rw [(h.used_iff hb).2 (.inl hbase)] at hfree
      cases hfree
    · rw [update_of_ne hxk] at hx ⊢
      exact h.not_base hx
  lt_limit := by
    intro x hx
    by_cases hxk : x = k
    · rwa [hxk, update_self]
    · rw [update_of_ne hxk] at hx ⊢
      exact h.lt_limit hx

theorem give (hk : own k ≠ 0) :
    Exact base limit (update used (own k) false) (update own k 0) where
  inj := by
    intro x y hx heq
    have hxk : x ≠ k := by
      rintro rfl
      exact hx (update_self x 0 own)
    have hyk : y ≠ k := by
      rintro rfl
      rw [update_self] at heq
      exact hx heq
    rw [update_of_ne hxk] at hx heq
    rw [update_of_ne hyk] at heq
    exact h.inj hx heq
  used_iff := by
    intro x hx
    by_cases hxb : x = own k
    · simp only [hxb, update_self, Bool.false_eq_true, false_iff, not_or, not_exists, not_and]
      refine ⟨h.not_base hk, fun y hy heq => ?_⟩
      by_cases hyk : y = k
      · exact hy (by rw [hyk, update_self])
      · rw [update_of_ne hyk] at heq
        exact hyk (h.inj (heq ▸ hk) heq)
    · rw [update_of_ne hxb, h.used_iff hx]
      refine or_congr_right ⟨?_, ?_⟩
      · rintro ⟨y, hy, rfl⟩
        have hyk : y ≠ k := fun heq => hxb (heq ▸ rfl)
        exact ⟨y, by rwa [update_of_ne hyk], update_of_ne hyk 0 own⟩
      · rintro ⟨y, hy, rfl⟩
        have hyk : y ≠ k := by
          rintro rfl
          exact hy (update_self y 0 own)
        rw [update_of_ne hyk] at hy ⊢
        exact ⟨y, hy, rfl⟩
  not_base := by
    intro x hx
    have hxk : x ≠ k := by
      rintro rfl
      exact hx (update_self x 0 own)
    rw [update_of_ne hxk] at hx ⊢
    exact h.not_base hx
  lt_limit := by
    intro x hx
    have hxk : x ≠ k := by
      rintro rfl
      exact hx (update_self x 0 own)
    rw [update_of_ne hxk] at hx ⊢
    exact h.lt_limit hx

end

end Exact

end

/-! ## Any number of takings -/

/-- **Blocks were taken into empty slots**, from `used`, `own` to `used'`, `own'`. -/
structure Extends (limit : Nat) (used used' : Nat → Bool) (own own' : κ → Nat) : Prop where
  /-- A filled slot keeps its block. -/
  keep : ∀ {k}, own k ≠ 0 → own' k = own k
  /-- Every slot that was filled has cost a free block. -/
  balance : ∀ S : Finset κ, (∀ k, own k = 0 → own' k ≠ 0 → k ∈ S) →
    freeBlocks limit used + missing own' S = freeBlocks limit used' + missing own S

namespace Extends

variable {limit b : Nat} {used used' used'' : Nat → Bool} {own own' own'' : κ → Nat} {k : κ}

theorem refl : Extends limit used used own own := ⟨fun _ => rfl, fun _ _ => rfl⟩

theorem eq_zero (h : Extends limit used used' own own') (hk : own' k = 0) : own k = 0 := by
  by_contra hne
  exact hne (h.keep hne ▸ hk)

theorem trans (h : Extends limit used used' own own') (h' : Extends limit used' used'' own' own'') :
    Extends limit used used'' own own'' where
  keep hk := by
    have := h.keep hk
    rw [h'.keep (this ▸ hk), this]
  balance S hS := by
    have h1 := h.balance S fun k hk hk' => hS k hk (by rwa [h'.keep hk'])
    have h2 := h'.balance S fun k hk hk' => hS k (h.eq_zero hk) hk'
    omega

theorem take [DecidableEq κ] (hb : b < limit) (hfree : used b = false) (hempty : own k = 0)
    (h0 : b ≠ 0) :
    Extends limit used (update used b true) own (update own k b) where
  keep hk := update_of_ne (fun heq => hk (by rw [heq, hempty])) _ _
  balance S hS := by
    have hk : k ∈ S := hS k hempty (by rwa [update_self])
    have h1 := freeBlocks_take hb hfree
    have h2 := missing_fill hk hempty h0
    omega

end Extends

end Foundation
