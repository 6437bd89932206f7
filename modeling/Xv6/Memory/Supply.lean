import Xv6.Memory.Linking

/-! # Memory for a new thread

What `thread_create` asks `kalloc` for, and what follows if it gets it.

* **`linkAll_supplied`** — the loop of `linkuvm` asks for two pages at most for every page of the
  caller: a page table, and the page without access. If they are granted, it does not fail. -/

namespace Xv6.Memory

open Foundation

variable (L : Layout) {m m' m'' : Mem} {j n : Nat}

/-- The next `n` calls of `kalloc` are granted. -/
def Mem.Supplies (m : Mem) (n : Nat) : Prop := n ≤ m.freelist.length ∧ true ∉ m.refuse.take n

instance : Decidable (m.Supplies n) := inferInstanceAs (Decidable (_ ∧ _))

/-- On the way from `m` to `m'` at most `n` calls of `kalloc` were made. -/
def Mem.Spends (m : Mem) (n : Nat) (m' : Mem) : Prop := ∀ k, m.Supplies (k + n) → m'.Supplies k

theorem Mem.Supplies.mono (h : m.Supplies n) (hj : j ≤ n) : m.Supplies j :=
  ⟨hj.trans h.1, fun hmem => h.2 ((List.take_prefix_take_left hj).subset hmem)⟩

theorem Mem.Spends.mono (h : m.Spends j m') (hj : j ≤ n) : m.Spends n m' :=
  fun k hk => h k (hk.mono (by omega))

theorem Mem.Spends.refl (m : Mem) : m.Spends n m := fun _ h => h.mono (Nat.le_add_right ..)

theorem Mem.Spends.trans (h : m.Spends j m') (h' : m'.Spends n m'') : m.Spends (n + j) m'' :=
  fun k hk => h' k (h (k + n) (by rwa [Nat.add_assoc]))

theorem kalloc_supply :
    Ends kalloc m (fun r m' => (r = none → ¬ m.Supplies 1) ∧
      (r ≠ none → m.Supplies 1 ∧ m.Spends 1 m')) (Calm False False) := by
  simp only [kalloc, ends_bind, ends_get, ends_modify]
  split
  · -- the outcome of this call is a refusal
    rename_i hrefuse
    refine ⟨fun _ h => h.2 ?_, by simp⟩
    rcases hm : m.refuse with _ | ⟨b, bs⟩ <;> simp_all
  · rename_i hgrant
    rcases hl : m.freelist with _ | ⟨f, fs⟩
    · exact ⟨fun _ h => absurd h.1 (by simp [hl]), by simp⟩
    · simp only [ends_bind, ends_stopIf, ends_modify, ends_pure]
      refine ⟨fun _ => False.elim, fun hf => ⟨by simp, fun _ => ⟨?_, fun k hk => ?_⟩⟩⟩ <;>
        unfold Mem.Supplies at * <;> rcases hm : m.refuse with _ | ⟨b, bs⟩ <;> simp_all

theorem mappages_supply {d va : Nat} {f : Frame} {w u : Bool} :
    Ends (mappages d va f w u) m (fun r m' =>
      (r = false → ¬ m.Supplies 1) ∧ (r = true → m.Spends 1 m')) (Calm False False) := by
  have hmap : ∀ {loc m1}, m.Spends 1 m1 →
      Ends (readPte loc >>= fun pte => stopIf (pte.p = true) (Stop.panic "remap") >>= fun _ =>
        writePte loc ⟨f, true, w, u⟩ >>= fun _ => pure true) m1
        (fun r m' => (r = false → ¬ m.Supplies 1) ∧ (r = true → m.Spends 1 m'))
          (Calm False False) := by
    intro loc m1 hspent
    rw [readPte, bind_assoc, ends_bind]
    refine entriesOf_ends' (calm_or False.elim) ?_
    simp only [pure_bind, ends_bind, ends_stopIf, writePte, ends_modify, ends_pure]
    exact ⟨fun _ => False.elim, fun _ => ⟨by simp, fun _ => hspent⟩⟩
  simp only [mappages, walkpgdir, bind_assoc, ends_bind]
  refine entriesOf_ends' (calm_or False.elim) ?_
  split
  · -- the page table is there
    exact hmap (.refl m)
  · simp only [if_true, ends_bind]
    refine kalloc_supply.imp ?_
    rintro (_ | pgtab) m1 ⟨hnone, hsome⟩
    · exact ⟨fun _ => hnone rfl, by simp⟩
    · exact hmap (hsome (by simp)).2

/-- **The kernel half** of a directory takes a page table for each of its parts. -/
theorem mapKernel_supply {d : Frame} {is : List Nat} :
    Ends (mapKernel L d is) m (fun r m' => r = true → m.Spends is.length m')
      (Calm False False) := by
  induction is generalizing m with
  | nil => exact fun _ => .refl m
  | cons i is ih =>
    simp only [mapKernel, ends_bind]
    refine kalloc_supply.imp ?_
    rintro (_ | pgtab) m1 ⟨-, hsome⟩
    · exact fun h => absurd h Bool.false_ne_true
    · exact ih.imp fun _ m2 h hr => (hsome (by simp)).2.trans (h hr)

theorem setupkvm_supply :
    Ends (setupkvm L) m (fun r m' => ∀ d, r = some d → m.Spends (kernelTables.length + 1) m')
      (Calm False False) := by
  simp only [setupkvm, ends_bind]
  refine kalloc_supply.imp ?_
  rintro (_ | f) m1 ⟨-, hsome⟩
  · exact nofun
  · simp only [ends_bind, ends_modify]
    refine (mapKernel_supply L).imp ?_
    rintro (_ | _) m2 hspent
    · simp only [Bool.false_eq_true, if_false, ends_bind]
      exact ends_unsafe not_false fun _ _ => nofun
    · exact fun _ _ => (hsome (by simp)).2.trans (hspent rfl)

/-! ## The loop of `linkuvm` -/

variable {pgdir sz orig stack d k : Nat}

/-- **One iteration** maps a page, and may take one for it. -/
theorem linkAt_supply :
    Ends (linkAt L pgdir sz orig stack d k) m (fun r m' =>
      (r = some false → ¬ m.Supplies 2) ∧ (r = none → m.Spends 2 m')) (Calm False False) := by
  simp only [linkAt, ends_bind]
  refine presentPte_ends False.elim False.elim fun _ => ?_
  split
  · -- a page of the caller is linked
    rw [ends_bind]
    refine mappages_supply.imp ?_
    rintro (_ | _) m1 ⟨hfail, hok⟩
    · exact ⟨fun _ h => hfail rfl (h.mono (by decide)), by simp⟩
    · exact ⟨by simp, fun _ => (hok rfl).mono (by decide)⟩
  split
  · -- the page below the stack
    simp only [ends_bind]
    refine kalloc_supply.imp ?_
    rintro (_ | f) m1 ⟨hnone, hsome⟩
    · exact ⟨fun _ h => hnone rfl (h.mono (by decide)), by simp⟩
    rw [ends_bind]
    refine mappages_supply.imp ?_
    rintro (_ | _) m2 ⟨hfail, hok⟩
    · simp only [Bool.false_eq_true, if_false, ends_bind]
      exact ends_unsafe not_false fun _ _ =>
        ⟨fun _ h => hfail rfl ((hsome (by simp)).2 1 h), by simp⟩
    · exact ⟨by simp, fun _ => (hsome (by simp)).2.trans (hok rfl)⟩
  · -- the stack, with which the loop ends
    rw [ends_bind]
    refine mappages_supply.imp ?_
    rintro (_ | _) m1 ⟨hfail, -⟩
    · exact ⟨fun _ h => hfail rfl (h.mono (by decide)), by simp⟩
    · simp only [if_true, ends_bind]
      exact ends_unsafe not_false fun _ _ => ⟨by simp, by simp⟩

/-- **A loop** whose rounds ask for two pages at most does not fail if all of them are granted. -/
theorem untilSome_supplied {β : Type} {body : Nat → Code (Option β)} {p : β → Prop} {lo : Nat}
    (hbody : ∀ k m, Ends (body k) m (fun r m' =>
      (∀ b, r = some b → p b → ¬ m.Supplies 2) ∧ (r = none → m.Spends 2 m'))
      (Calm False False))
    (hs : m.Supplies (2 * n)) :
    Ends (untilSome body (List.range' lo n)) m (fun r _ => ∀ b, r = some b → ¬ p b)
      (Calm False False) := by
  -- before round `k` there is enough for the rounds that are left
  refine ends_untilSome (fun k m' => m'.Supplies (2 * (lo + n - k))) (by simpa using hs)
    (fun k _ hk m' hleft => (hbody k m').imp ?_) (by simp)
  rintro r m'' ⟨hfail, hok⟩
  exact ⟨fun hr => hok hr _ (hleft.mono (by omega)),
    fun _ b hr hb => hfail b hr hb (hleft.mono (by omega))⟩

/-- **The loop of `linkuvm`** does not fail if all that it asks for is granted. -/
theorem linkAll_supplied (hs : m.Supplies (2 * pagesIn sz)) :
    Ends (linkAll L pgdir sz orig stack d) m (fun r _ => r ≠ some false) (Calm False False) :=
  (untilSome_supplied (p := (· = false)) (fun _ _ => (linkAt_supply L).imp fun _ _ h =>
    ⟨fun _ hr hb => h.1 (hb ▸ hr), h.2⟩) hs).imp fun _ _ h hr => h false hr rfl

end Xv6.Memory
