import Mathlib.Algebra.Ring.Nat
import Mathlib.Data.List.Pairwise
import Mathlib.Data.Set.Lattice
import Mathlib.Order.CompletePartialOrder

/-! # Spans of memory

A span is a first cell and a number of cells. A list of spans is `Spaced` if every one ends before
the next begins, with a gap between them.

* **`Spaced.insert`** — a span that fits between others is inserted and joined with those it
  touches;
* **`cells_insert`**, **`total_insert`** — no cell is lost on the way, and none is counted twice. -/

namespace Foundation

/-- Consecutive cells. -/
@[ext]
structure Span where
  start : Nat
  len : Nat
  deriving DecidableEq, Repr

namespace Span

/-- The first cell behind a span. -/
def stop (b : Span) : Nat := b.start + b.len

/-- The cells of a span. -/
def cells (b : Span) : Set Nat := {x | b.start ≤ x ∧ x < b.stop}

/-- Two spans that follow each other, as one. -/
def join (a b : Span) : Span := ⟨a.start, a.len + b.len⟩

theorem stop_join {a b : Span} (h : a.stop = b.start) : (a.join b).stop = b.stop := by
  unfold stop join at *
  dsimp only
  omega

theorem cells_join {a b : Span} (h : a.stop = b.start) : (a.join b).cells = a.cells ∪ b.cells := by
  ext x
  simp only [cells, Set.mem_ofPred_eq, Set.mem_union, stop_join h]
  unfold stop join at *
  dsimp only at *
  omega

theorem le_or_le {a b : Span} (ha : 0 < a.len) (hb : 0 < b.len) (h : Disjoint a.cells b.cells) :
    a.stop ≤ b.start ∨ b.stop ≤ a.start := by
  by_contra hno
  have hcell : ∀ x, a.start ≤ x → x < a.stop → b.start ≤ x → x < b.stop → False :=
    fun x h1 h2 h3 h4 => Set.disjoint_left.1 h (show x ∈ a.cells from ⟨h1, h2⟩) ⟨h3, h4⟩
  unfold stop at *
  rcases Nat.le_total a.start b.start with hle | hle
  · exact hcell b.start hle (by omega) le_rfl (by omega)
  · exact hcell a.start le_rfl (by omega) hle (by omega)

end Span

/-! ## Lists of spans -/

namespace Spans

variable {a b : Span} {l l1 l2 : List Span}

/-- The cells of a list of spans. -/
def cells (l : List Span) : Set Nat := {x | ∃ b ∈ l, x ∈ b.cells}

/-- The number of cells. -/
def total (l : List Span) : Nat := (l.map Span.len).sum

@[simp] theorem cells_nil : cells [] = ∅ := by
  ext x
  simp [cells]

@[simp] theorem cells_cons : cells (b :: l) = b.cells ∪ cells l := by
  ext x
  simp [cells]

@[simp] theorem cells_append : cells (l1 ++ l2) = cells l1 ∪ cells l2 := by
  induction l1 with
  | nil => simp
  | cons a l1 ih => rw [List.cons_append, cells_cons, cells_cons, ih, Set.union_assoc]

@[simp] theorem total_nil : total [] = 0 := rfl

@[simp] theorem total_cons : total (b :: l) = b.len + total l := by
  simp [total]

@[simp] theorem total_append : total (l1 ++ l2) = total l1 + total l2 := by
  simp [total]

/-- **Every span ends before the next begins.** -/
def Spaced (l : List Span) : Prop := l.Pairwise fun a b => a.stop < b.start

/-- A span in front of others, joined with the first if it touches it. -/
def joinUp (b : Span) : List Span → List Span
  | [] => [b]
  | c :: l => if b.stop = c.start then b.join c :: l else b :: c :: l

/-- A span behind others, joined with the last if it touches it. -/
def joinDown (l : List Span) (b : Span) : List Span :=
  match l.getLast? with
  | none => [b]
  | some a => if a.stop = b.start then l.dropLast ++ [a.join b] else l ++ [b]

@[simp] theorem joinUp_nil : joinUp b [] = [b] := rfl

theorem joinUp_cons (c : Span) :
    joinUp b (c :: l) = if b.stop = c.start then b.join c :: l else b :: c :: l := rfl

@[simp] theorem joinDown_nil : joinDown [] b = [b] := rfl

theorem joinDown_concat (a : Span) :
    joinDown (l ++ [a]) b = if a.stop = b.start then l ++ [a.join b] else (l ++ [a]) ++ [b] := by
  simp [joinDown]

/-- **A span is inserted** between others. -/
def insert (l1 : List Span) (b : Span) (l2 : List Span) : List Span :=
  match joinUp b l2 with
  | [] => l1
  | c :: l => joinDown l1 c ++ l

/-- The first of the spans after a join starts where the new one does, and the others were there. -/
theorem exists_joinUp (b : Span) (l : List Span) :
    ∃ c l', joinUp b l = c :: l' ∧ c.start = b.start ∧ ∀ d ∈ l', d ∈ l := by
  cases l with
  | nil => exact ⟨_, _, rfl, rfl, fun d hd => hd⟩
  | cons c l =>
    rw [joinUp_cons]
    split
    · exact ⟨_, _, rfl, rfl, fun d hd => List.mem_cons_of_mem c hd⟩
    · exact ⟨_, _, rfl, rfl, fun d hd => hd⟩

/-- **What joining keeps** holds after an insertion, if it holds with the span between the
others. -/
theorem insert_induction {Q : List Span → Prop}
    (hjoin : ∀ l a c l', a.stop = c.start → Q (l ++ a :: c :: l') → Q (l ++ a.join c :: l'))
    (h : Q (l1 ++ b :: l2)) : Q (insert l1 b l2) := by
  have hdown : ∀ {c l}, Q (l1 ++ c :: l) → Q (joinDown l1 c ++ l) := by
    intro c l hc
    rcases List.eq_nil_or_concat l1 with rfl | ⟨m, a, rfl⟩
    · exact hc
    · rw [List.concat_eq_append, List.append_assoc] at hc
      rw [List.concat_eq_append, joinDown_concat]
      split
      · rename_i htouch
        rw [List.append_assoc]
        exact hjoin m a c l htouch hc
      · rwa [List.append_assoc, List.append_assoc]
  cases l2 with
  | nil => exact hdown h
  | cons c l =>
    by_cases htouch : b.stop = c.start
    · rw [insert, joinUp_cons, if_pos htouch]
      exact hdown (hjoin l1 b c l htouch h)
    · rw [insert, joinUp_cons, if_neg htouch]
      exact hdown h

theorem cells_insert : cells (insert l1 b l2) = cells (l1 ++ l2) ∪ b.cells := by
  refine insert_induction (Q := fun l => cells l = _) (fun l a c l' htouch h => ?_) ?_
  · rw [← h]
    simp [Span.cells_join htouch, Set.union_assoc]
  · rw [cells_append, cells_append, cells_cons, Set.union_comm b.cells, Set.union_assoc]

theorem total_insert : total (insert l1 b l2) = total (l1 ++ l2) + b.len := by
  refine insert_induction (Q := fun l => total l = _) (fun l a c l' _ h => ?_) ?_
  · rw [← h]
    simp [Span.join, Nat.add_assoc]
  · simp only [total_append, total_cons]
    omega

/-- Where the spans after an insertion start, and that none is empty if none was. -/
theorem mem_insert (hpos : ∀ a ∈ l1 ++ b :: l2, 0 < a.len) :
    ∀ d ∈ insert l1 b l2, 0 < d.len ∧ ∃ a ∈ l1 ++ b :: l2, d.start = a.start := by
  refine insert_induction (Q := fun l => ∀ d ∈ l, 0 < d.len ∧ ∃ a ∈ l1 ++ b ::
      l2, d.start = a.start)
    (fun l a c l' _ h d hd => ?_) fun d hd => ⟨hpos d hd, d, hd, rfl⟩
  rcases List.mem_append.1 hd with hd | hd
  · exact h d (List.mem_append_left _ hd)
  rcases List.mem_cons.1 hd with rfl | hd
  · exact ⟨Nat.add_pos_left (h a (by simp)).1 _, (h a (by simp)).2⟩
  · exact h d (by simp [hd])

theorem exists_le_insert : ∃ d ∈ insert l1 b l2, b.len ≤ d.len := by
  refine insert_induction (Q := fun l => ∃ d ∈ l, b.len ≤ d.len) (fun l a c l' _ h => ?_)
    ⟨b, by simp, le_rfl⟩
  obtain ⟨d, hd, hle⟩ := h
  by_cases hin : d = a ∨ d = c
  · refine ⟨a.join c, by simp, hle.trans ?_⟩
    rcases hin with rfl | rfl
    · exact Nat.le_add_right _ _
    · exact Nat.le_add_left _ _
  · exact ⟨d, by simp_all; tauto, hle⟩

/-! ## Where the spans are -/

theorem Spaced.joinUp (h : Spaced l) (hb : ∀ c ∈ l, b.stop ≤ c.start) : Spaced (joinUp b l) := by
  cases l with
  | nil => exact List.pairwise_singleton _ _
  | cons c l =>
    obtain ⟨hc, hl⟩ := List.pairwise_cons.1 h
    rw [joinUp_cons]
    split
    · rename_i htouch
      refine List.pairwise_cons.2 ⟨fun d hd => ?_, hl⟩
      rw [Span.stop_join htouch]
      exact hc d hd
    · rename_i hgap
      have hbc : b.stop < c.start := lt_of_le_of_ne (hb c List.mem_cons_self) hgap
      refine List.pairwise_cons.2 ⟨fun d hd => ?_, h⟩
      rcases List.mem_cons.1 hd with rfl | hd
      · exact hbc
      · have := hc d hd
        unfold Span.stop at *
        omega

theorem Spaced.joinDown (h : Spaced (l ++ l2)) (hb : ∀ a ∈ l, a.stop ≤ b.start)
    (hl2 : Spaced (b :: l2)) : Spaced (joinDown l b ++ l2) := by
  obtain ⟨hb2, -⟩ := List.pairwise_cons.1 hl2
  rcases List.eq_nil_or_concat l with rfl | ⟨l, a, rfl⟩
  · exact hl2
  rw [List.concat_eq_append] at h hb ⊢
  obtain ⟨hla, hl2', hcross⟩ := List.pairwise_append.1 h
  obtain ⟨hl, -, hlast⟩ := List.pairwise_append.1 hla
  rw [joinDown_concat]
  split
  · rename_i htouch
    rw [List.append_assoc]
    refine List.pairwise_append.2 ⟨hl, List.pairwise_cons.2 ⟨fun d hd => ?_, hl2'⟩, ?_⟩
    · rw [Span.stop_join htouch]
      exact hb2 d hd
    · intro c hc d hd
      rcases List.mem_cons.1 hd with rfl | hd
      · exact hlast c hc a (List.mem_singleton.2 rfl)
      · exact hcross c (List.mem_append_left _ hc) d hd
  · rename_i hgap
    have hab : a.stop < b.start := lt_of_le_of_ne (hb a (by simp)) hgap
    rw [List.append_assoc]
    refine List.pairwise_append.2 ⟨hla, hl2, fun c hc d hd => ?_⟩
    rcases List.mem_cons.1 hd with rfl | hd
    · rcases List.mem_append.1 hc with hc | hc
      · -- `c` ends before `a` begins, and `a` ends before the new span
        have := hlast c hc a (List.mem_singleton.2 rfl)
        unfold Span.stop at *
        omega
      · obtain rfl := List.mem_singleton.1 hc
        exact hab
    · exact hcross c hc d hd

/-- **A span that fits between others** is inserted. -/
theorem Spaced.insert (h : Spaced (l1 ++ l2)) (h1 : ∀ a ∈ l1, a.stop ≤ b.start)
    (h2 : ∀ c ∈ l2, b.stop ≤ c.start) : Spaced (insert l1 b l2) := by
  obtain ⟨hl1, hl2, hcross⟩ := List.pairwise_append.1 h
  obtain ⟨c, l, hup, hstart, hmem⟩ := exists_joinUp b l2
  have hspaced : Spaced (c :: l) := hup ▸ Spaced.joinUp hl2 h2
  rw [Spans.insert, hup]
  refine Spaced.joinDown ?_ (fun a ha => hstart ▸ h1 a ha) hspaced
  refine List.pairwise_append.2 ⟨hl1, (List.pairwise_cons.1 hspaced).2, fun a ha d hd => ?_⟩
  exact hcross a ha d (hmem d hd)

theorem Spaced.disjoint (h : Spaced (l1 ++ b :: l2)) : Disjoint b.cells (cells (l1 ++ l2)) := by
  obtain ⟨-, hb, hcross⟩ := List.pairwise_append.1 h
  refine Set.disjoint_left.2 fun x hx ⟨d, hd, hxd⟩ => ?_
  rcases List.mem_append.1 hd with hd | hd
  · exact absurd (hcross d hd b List.mem_cons_self) (by have := hxd.2; have := hx.1; omega)
  · exact absurd ((List.pairwise_cons.1 hb).1 d hd) (by have := hxd.1; have := hx.2; omega)

theorem Spaced.shrink (h : Spaced (l1 ++ b :: l2)) {n : Nat} (hn : n ≤ b.len) :
    Spaced (l1 ++ ⟨b.start, n⟩ :: l2) := by
  obtain ⟨h1, hb, hcross⟩ := List.pairwise_append.1 h
  obtain ⟨hb2, h2⟩ := List.pairwise_cons.1 hb
  refine List.pairwise_append.2 ⟨h1, List.pairwise_cons.2 ⟨fun d hd => ?_, h2⟩, fun a ha d hd => ?_⟩
  · have := hb2 d hd
    unfold Span.stop at *
    dsimp only
    omega
  · rcases List.mem_cons.1 hd with rfl | hd
    · exact hcross a ha b List.mem_cons_self
    · exact hcross a ha d (List.mem_cons_of_mem _ hd)

theorem Spaced.remove (h : Spaced (l1 ++ b :: l2)) : Spaced (l1 ++ l2) :=
  h.sublist ((List.sublist_cons_self b l2).append_left l1)

/-- **A span without a cell in common** with others has its place between them. -/
theorem Spaced.exists_split (h : Spaced l) (hpos : ∀ a ∈ l, 0 < a.len) (hb : 0 < b.len)
    (hdisj : Disjoint b.cells (cells l)) :
    ∃ l1 l2, l = l1 ++ l2 ∧ (∀ a ∈ l1, a.stop ≤ b.start) ∧ ∀ c ∈ l2, b.stop ≤ c.start := by
  induction l with
  | nil => exact ⟨[], [], rfl, by simp, by simp⟩
  | cons a l ih =>
    obtain ⟨ha, hl⟩ := List.pairwise_cons.1 h
    rw [cells_cons, Set.disjoint_union_right] at hdisj
    rcases Span.le_or_le hb (hpos a List.mem_cons_self) hdisj.1 with hle | hle
    · refine ⟨[], a :: l, rfl, by simp, fun c hc => ?_⟩
      rcases List.mem_cons.1 hc with rfl | hc
      · exact hle
      · have := ha c hc
        unfold Span.stop at *
        omega
    · obtain ⟨l1, l2, rfl, h1, h2⟩ :=
        ih hl (fun c hc => hpos c (List.mem_cons_of_mem a hc)) hdisj.2
      refine ⟨a :: l1, l2, rfl, fun c hc => ?_, h2⟩
      rcases List.mem_cons.1 hc with rfl | hc
      · exact hle
      · exact h1 c hc

end Spans

end Foundation
