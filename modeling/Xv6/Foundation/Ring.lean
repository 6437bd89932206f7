import Mathlib.Data.List.Induction
import Mathlib.Data.List.Nodup

/-! # Doubly linked rings

Nodes with a `next` and a `prev` pointer each, in a ring with one head; `none` is the head and
`some a` a node.

* **`Links.Ring`** — the pointers spell a list, forwards and backwards;
* **`Ring.remove`**, **`Ring.insertFront`**, **`Ring.insertAll`** — what the usual pointer surgery
  does to it;
* **`Ring.walk_next`**, **`Ring.walk_prev`** — what a loop along the pointers sees. -/

namespace Foundation

open Function

variable {α : Type*}

/-- The pointers of the nodes and of the head. -/
structure Links (α : Type*) where
  next : Option α → Option α
  prev : Option α → Option α

namespace Links

/-- The pointers lead from `x` through the nodes `l` to `y`, and back. -/
def Path (r : Links α) : Option α → List α → Option α → Prop
  | x, [], y => r.next x = y ∧ r.prev y = x
  | x, a :: l, y => r.next x = some a ∧ r.prev (some a) = x ∧ r.Path (some a) l y

/-- **The pointers are a ring** through the nodes `l`. -/
structure Ring (r : Links α) (l : List α) : Prop where
  nodup : l.Nodup
  path : r.Path none l none

/-- The ring of the head alone. -/
def alone : Links α where
  next := fun _ => none
  prev := fun _ => none

theorem alone_ring : (alone : Links α).Ring [] := ⟨List.nodup_nil, rfl, rfl⟩

variable {r r' : Links α} {x y : Option α} {a b : α} {l l1 l2 : List α}

theorem path_append : r.Path x (l1 ++ a :: l2) y ↔ r.Path x l1 (some a) ∧ r.Path (some a) l2 y := by
  induction l1 generalizing x with
  | nil => exact and_assoc.symm
  | cons b l1 ih =>
    rw [List.cons_append, Path, Path, ih]
    tauto

theorem Path.congr (h : r.Path x l y) (hx : r'.next x = r.next x)
    (hnext : ∀ a ∈ l, r'.next (some a) = r.next (some a))
    (hprev : ∀ a ∈ l, r'.prev (some a) = r.prev (some a)) (hy : r'.prev y = r.prev y) :
    r'.Path x l y := by
  induction l generalizing x with
  | nil => exact ⟨hx.trans h.1, hy.trans h.2⟩
  | cons a l ih =>
    obtain ⟨h1, h2, h3⟩ := h
    refine ⟨hx.trans h1, (hprev a List.mem_cons_self).trans h2, ?_⟩
    exact ih h3 (hnext a List.mem_cons_self) (fun b hb => hnext b (List.mem_cons_of_mem _ hb))
      fun b hb => hprev b (List.mem_cons_of_mem _ hb)

theorem Path.prev_mem (h : r.Path x l y) : r.prev y = x ∨ ∃ a ∈ l, r.prev y = some a := by
  induction l generalizing x with
  | nil => exact Or.inl h.2
  | cons a l ih =>
    rcases ih h.2.2 with heq | ⟨b, hb, heq⟩
    · exact Or.inr ⟨a, List.mem_cons_self, heq⟩
    · exact Or.inr ⟨b, List.mem_cons_of_mem _ hb, heq⟩

/-! ## Loops along the pointers -/

/-- The nodes that a loop along the pointers `f` visits before it comes to the head, at most `n`. -/
def walk (f : Option α → Option α) : Nat → Option α → List α
  | 0, _ => []
  | _, none => []
  | n + 1, some a => a :: walk f n (f (some a))

theorem Path.walk_next (h : r.Path x l none) {n : Nat} (hn : l.length ≤ n) :
    walk r.next n (r.next x) = l := by
  induction l generalizing x n with
  | nil =>
    rw [h.1]
    cases n <;> rfl
  | cons a l ih =>
    obtain ⟨h1, -, h3⟩ := h
    obtain ⟨n, rfl⟩ := Nat.exists_eq_add_of_le' (Nat.lt_of_lt_of_le (Nat.zero_lt_succ _) hn)
    rw [h1]
    exact congrArg (a :: ·) (ih h3 (Nat.le_of_succ_le_succ hn))

theorem Path.walk_prev (h : r.Path none l y) {n : Nat} (hn : l.length ≤ n) :
    walk r.prev n (r.prev y) = l.reverse := by
  induction l using List.reverseRecOn generalizing y n with
  | nil =>
    rw [h.2]
    cases n <;> rfl
  | append_singleton l a ih =>
    obtain ⟨h1, -, h2⟩ := path_append.1 h
    rw [List.length_append] at hn
    obtain ⟨n, rfl⟩ := Nat.exists_eq_add_of_le' (Nat.lt_of_lt_of_le (Nat.zero_lt_succ _) hn)
    rw [h2, List.reverse_append]
    exact congrArg (a :: ·) (ih h1 (Nat.le_of_succ_le_succ hn))

theorem Ring.walk_next (h : r.Ring l) {n : Nat} (hn : l.length ≤ n) :
    walk r.next n (r.next none) = l :=
  h.path.walk_next hn

theorem Ring.walk_prev (h : r.Ring l) {n : Nat} (hn : l.length ≤ n) :
    walk r.prev n (r.prev none) = l.reverse :=
  h.path.walk_prev hn

/-! ## Surgery -/

variable [DecidableEq α]

/-- `x->next = y`. -/
@[simps] def setNext (r : Links α) (x y : Option α) : Links α :=
  { r with next := update r.next x y }

/-- `x->prev = y`. -/
@[simps] def setPrev (r : Links α) (x y : Option α) : Links α :=
  { r with prev := update r.prev x y }

/-- Take a node out: `b->next->prev = b->prev; b->prev->next = b->next`. -/
def remove (r : Links α) (b : α) : Links α :=
  let r := r.setPrev (r.next (some b)) (r.prev (some b))
  r.setNext (r.prev (some b)) (r.next (some b))

/-- Put a node behind the head: `b->next = head.next; b->prev = &head; head.next->prev = b;
head.next = b`. -/
def insertFront (r : Links α) (b : α) : Links α :=
  let r := r.setNext (some b) (r.next none)
  let r := r.setPrev (some b) none
  let r := r.setPrev (r.next none) (some b)
  r.setNext none (some b)

theorem Path.join (h1 : r.Path x l1 (some b)) (h2 : r.Path (some b) l2 y)
    (hnext : r'.next = update r.next (r.prev (some b)) (r.next (some b)))
    (hprev : r'.prev = update r.prev (r.next (some b)) (r.prev (some b)))
    (hx : ∀ a ∈ l1 ++ l2, x ≠ some a) (hy : ∀ a ∈ l1 ++ l2, y ≠ some a)
      (hnodup : (l1 ++ l2).Nodup) :
    r'.Path x (l1 ++ l2) y := by
  induction l1 generalizing x with
  | nil =>
    -- `x` is what comes before `b`
    have hpb : r.prev (some b) = x := h1.2
    have hself : r'.next x = r.next (some b) := by rw [hnext, hpb, update_self]
    have hback : r'.prev (r.next (some b)) = x := by rw [hprev, update_self, hpb]
    cases l2 with
    | nil =>
      rw [h2.1] at hself hback
      exact ⟨hself, hback⟩
    | cons c l =>
      obtain ⟨hc, -, hrest⟩ := h2
      rw [hc] at hself hback hprev
      obtain ⟨hcl, -⟩ := List.nodup_cons.1 hnodup
      refine ⟨hself, hback, hrest.congr ?_ ?_ ?_ ?_⟩
      · rw [hnext, hpb, update_of_ne (hx c List.mem_cons_self).symm]
      · intro a ha
        rw [hnext, hpb, update_of_ne (hx a (List.mem_cons_of_mem _ ha)).symm]
      · intro a ha
        have hac : a ≠ c := fun heq => hcl (heq ▸ ha)
        rw [hprev, update_of_ne fun heq => hac (Option.some.inj heq)]
      · rw [hprev, update_of_ne (hy c List.mem_cons_self)]
  | cons a l ih =>
    obtain ⟨ha, hpa, hrest⟩ := h1
    obtain ⟨hal, hnodup⟩ := List.nodup_cons.1 hnodup
    have hpath := ih hrest (fun c hc heq => hal (Option.some.inj heq ▸ hc))
      (fun c hc => hy c (List.mem_cons_of_mem _ hc)) hnodup
    refine ⟨?_, ?_, hpath⟩
    -- what comes before `b` is not `x`
    · have hne : x ≠ r.prev (some b) := by
        rcases hrest.prev_mem with heq | ⟨c, hc, heq⟩
        · rw [heq]
          exact hx a List.mem_cons_self
        · rw [heq]
          exact hx c (List.mem_cons_of_mem _ (List.mem_append_left _ hc))
      rw [hnext, update_of_ne hne, ha]
    -- what comes after `b` is not `a`
    · have hne : some a ≠ r.next (some b) := by
        cases l2 with
        | nil =>
          rw [h2.1]
          exact (hy a List.mem_cons_self).symm
        | cons c l2 =>
          rw [h2.1]
          intro heq
          exact hal (List.mem_append_right _ (Option.some.inj heq ▸ List.mem_cons_self))
      rw [hprev, update_of_ne hne, hpa]

theorem Ring.remove (h : r.Ring (l1 ++ b :: l2)) : (r.remove b).Ring (l1 ++ l2) := by
  obtain ⟨h1, h2⟩ := path_append.1 h.path
  have hnodup := h.nodup
  rw [List.nodup_middle] at hnodup
  refine ⟨(List.nodup_cons.1 hnodup).2, ?_⟩
  -- the second statement reads `b->prev` and `b->next` after the first one
  have hprev : (r.setPrev (r.next (some b)) (r.prev (some b))).prev (some b) = r.prev (some b) := by
    rw [setPrev_prev]
    by_cases hb : some b = r.next (some b)
    · rw [← hb, update_self]
    · rw [update_of_ne hb]
  refine h1.join h2 ?_ rfl (fun _ _ => nofun) (fun _ _ => nofun) (List.nodup_cons.1 hnodup).2
  show update r.next ((r.setPrev (r.next (some b)) (r.prev (some b))).prev (some b)) _ = _
  rw [hprev]
  rfl

/-- **A node is put behind the head** of a ring. -/
theorem Ring.insertFront (h : r.Ring l) (hb : b ∉ l) : (r.insertFront b).Ring (b :: l) := by
  refine ⟨List.nodup_cons.2 ⟨hb, h.nodup⟩, ?_⟩
  have hnone : (r.setNext (some b) (r.next none)).next none = r.next none := by
    rw [setNext_next, update_of_ne (Option.some_ne_none b).symm]
  -- the pointers afterwards
  have hnext : (r.insertFront b).next
      = update (update r.next (some b) (r.next none)) none (some b) := rfl
  have hprev : (r.insertFront b).prev
      = update (update r.prev (some b) none) (r.next none) (some b) := by
    rw [← hnone]
    rfl
  have hself : (r.insertFront b).next (some b) = r.next none := by
    rw [hnext, update_of_ne (Option.some_ne_none b), update_self]
  have hback : (r.insertFront b).prev (r.next none) = some b := by rw [hprev, update_self]
  have hkeep : ∀ a ∈ l, (r.insertFront b).next (some a) = r.next (some a) := by
    intro a ha
    have hab : a ≠ b := fun heq => hb (heq ▸ ha)
    rw [hnext, update_of_ne (Option.some_ne_none a),
      update_of_ne fun heq => hab (Option.some.inj heq)]
  have hfirst : some b ≠ r.next none := by
    cases l with
    | nil =>
      rw [h.path.1]
      nofun
    | cons c l =>
      rw [h.path.1]
      exact fun heq => hb (Option.some.inj heq ▸ List.mem_cons_self)
  refine ⟨by rw [hnext, update_self], ?_, ?_⟩
  · rw [hprev, update_of_ne hfirst, update_self]
  · cases l with
    | nil =>
      have hhead : r.next none = none := h.path.1
      rw [hhead] at hself hback
      exact ⟨hself, hback⟩
    | cons c l =>
      obtain ⟨hc, -, hrest⟩ := h.path
      rw [hc] at hself hback hprev
      obtain ⟨hcl, -⟩ := List.nodup_cons.1 h.nodup
      refine ⟨hself, hback, hrest.congr (hkeep c List.mem_cons_self)
        (fun a ha => hkeep a (List.mem_cons_of_mem _ ha)) (fun a ha => ?_) ?_⟩
      · have hac : a ≠ c := fun heq => hcl (heq ▸ ha)
        have hab : a ≠ b := fun heq => hb (heq ▸ List.mem_cons_of_mem _ ha)
        rw [hprev, update_of_ne fun heq => hac (Option.some.inj heq),
          update_of_ne fun heq => hab (Option.some.inj heq)]
      · rw [hprev, update_of_ne (Option.some_ne_none c).symm,
          update_of_ne (Option.some_ne_none b).symm]

/-- **A ring is built** by putting nodes behind the head one after the other. -/
theorem Ring.insertAll (h : r.Ring l) {l' : List α} (hnodup : (l' ++ l).Nodup) :
    (l'.foldl Links.insertFront r).Ring (l'.reverse ++ l) := by
  induction l' generalizing r l with
  | nil => exact h
  | cons b l' ih =>
    rw [List.cons_append, List.nodup_cons] at hnodup
    have hb : b ∉ l := fun hmem => hnodup.1 (List.mem_append_right _ hmem)
    rw [List.foldl_cons, List.reverse_cons, List.append_assoc]
    refine ih (h.insertFront hb) ?_
    rw [List.singleton_append, List.nodup_middle, List.nodup_cons]
    exact hnodup

end Links

end Foundation
