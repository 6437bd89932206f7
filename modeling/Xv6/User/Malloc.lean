import Xv6.Foundation.Runs
import Xv6.User.FreeList

/-! # The user's heap

`malloc` over the free list, and runs of a program that calls `malloc` and `free` and writes what it
likes into the blocks it has. The blocks in use are noted beside the heap.

* **`World.heap_correct`** — in every run the free list is a cycle of spaced blocks in the order of
  addresses, memory in use is apart from it, nothing is lost, and every call comes to its end. -/

namespace Xv6.Malloc

open Foundation Spans Function

variable {h : Heap} {L l1 l2 : List Span} {b : Span}

/-! ## `malloc` -/

/-- What taking a block does to the list. -/
structure Taken (h : Heap) (L : List Span) (n : Nat) (new : Span) (h' : Heap) (L' : List Span) :
    Prop where
  listed : Listed h' L'
  len : new.len = 8 * n
  size : h'.size new.start = n
  cells : cells L = cells L' ∪ new.cells
  disjoint : Disjoint new.cells (Spans.cells L')
  total : total L = total L' + new.len
  same : Same h h'
  outside : ∀ x, x ∉ Spans.cells L → h'.size x = h.size x

theorem start_mem {d : Span} (hd : 0 < d.len) : d.start ∈ d.cells :=
  ⟨le_rfl, Nat.lt_add_of_pos_right hd⟩

theorem subset_insert : l1 ++ l2 ⊆ l1 ++ b :: l2 :=
  ((List.sublist_cons_self b l2).append_left l1).subset

theorem taken_whole (hL : Listed h (l1 ++ b :: l2)) :
    Taken h (l1 ++ b :: l2) (h.size b.start) b
      { h with ptr := update h.ptr (h.prevOf l1) (h.ptr b.start), freep := h.prevOf l1 }
      (l1 ++ l2) := by
  have hnodup := hL.nodup
  have hchain := hL.chain
  rw [List.map_append, List.map_cons] at hnodup hchain
  obtain ⟨hfront, hback⟩ := Chain.append_iff.1 hchain
  rw [← List.cons_append] at hnodup
  obtain ⟨hnodup1, hnodup2, hne⟩ := List.nodup_append.1 hnodup
  refine ⟨⟨?_, fun d hd => hL.len d (subset_insert hd), fun d hd => hL.pos d (subset_insert hd),
    hL.spaced.remove, fun d hd => hL.low d (subset_insert hd), hL.base, ?_⟩, hL.len b (by simp),
      rfl, ?_, hL.spaced.disjoint, ?_,
    ⟨rfl, rfl, rfl⟩, fun _ _ => rfl⟩
  · -- the block before points past the one that is taken
    rw [List.map_append]
    have hfront' : Chain (update h.ptr (h.prevOf l1) (h.ptr b.start)) h.base
        (l1.map Span.start) (h.ptr b.start) := hfront.redirect hnodup1
    cases l2 with
    | nil =>
      have hlast : h.ptr b.start = h.base := hback
      rw [hlast] at hfront' ⊢
      simpa using hfront'
    | cons c l =>
      rw [hback.1] at hfront' ⊢
      refine Chain.append_iff.2 ⟨hfront', hback.2.update_of_notMem fun hx => ?_⟩
      exact hne _ endOf_mem _ (List.mem_cons_of_mem _ hx) rfl
  · show h.prevOf l1 ∈ _
    rw [List.map_append, ← List.cons_append]
    exact List.mem_append_left _ endOf_mem
  · simp only [cells_append, cells_cons]
    ext x
    simp only [Set.mem_union]
    tauto
  · simp only [total_append, total_cons]
    omega

theorem taken_end {n : Nat} (hL : Listed h (l1 ++ b :: l2)) (hn : 0 < n)
    (hlt : n < h.size b.start) :
    Taken h (l1 ++ b :: l2) n ⟨b.start + 8 * (h.size b.start - n), 8 * n⟩
      { h with
        size := update (update h.size b.start (h.size b.start - n))
          (b.start + 8 * (h.size b.start - n)) n
        freep := h.prevOf l1 }
      (l1 ++ ⟨b.start, 8 * (h.size b.start - n)⟩ :: l2) := by
  set rest := h.size b.start - n with hrest
  set q := b.start + 8 * rest with hq
  have hblen : b.len = 8 * h.size b.start := hL.len b (by simp)
  have hjoin : b = Span.join ⟨b.start, 8 * rest⟩ ⟨q, 8 * n⟩ := by
    ext
    · rfl
    · show b.len = 8 * rest + 8 * n
      omega
  have hcells : b.cells = Span.cells ⟨b.start, 8 * rest⟩ ∪ Span.cells ⟨q, 8 * n⟩ := by
    conv_lhs => rw [hjoin]
    exact Span.cells_join rfl
  have hdisj := hL.spaced.disjoint
  -- both headers are inside the old block
  have hqb : q ∈ b.cells := by
    rw [hcells]
    exact .inr (start_mem (by show 0 < 8 * n; omega))
  have hout : ∀ {x}, x ∉ b.cells → update (update h.size b.start rest) q n x = h.size x :=
      fun {x} hx => by
    have hbb := start_mem (hL.pos b (by simp))
    rw [update_of_ne (ne_of_mem_of_not_mem hqb hx).symm,
      update_of_ne (ne_of_mem_of_not_mem hbb hx).symm]
  have hlow : h.base < b.start := hL.low b (by simp)
  have hmem : ∀ {d}, d ∈ l1 ++ ⟨b.start, 8 * rest⟩ :: l2 →
      d = ⟨b.start, 8 * rest⟩ ∨ d ∈ l1 ++ l2 := fun {d} hd => by
    simp only [List.mem_append, List.mem_cons] at hd ⊢
    tauto
  have hstarts : (l1 ++ ⟨b.start, 8 * rest⟩ :: l2).map Span.start
      = (l1 ++ b :: l2).map Span.start := by
    simp
  refine ⟨⟨?_, fun d hd => ?_, fun d hd => ?_, hL.spaced.shrink (by omega), fun d hd => ?_, ?_, ?_⟩,
    rfl, ?_, ?_, ?_, ?_, ⟨rfl, rfl, rfl⟩, fun x hx => hout fun h' => hx (by simp [h'])⟩
  · rw [hstarts]
    exact hL.chain
  · rcases hmem hd with rfl | hd
    · have hne : b.start ≠ q := by omega
      dsimp only
      rw [update_of_ne hne, update_self]
    · have hpos := hL.pos d (subset_insert hd)
      dsimp only
      rw [hL.len d (subset_insert hd), hout fun hx => Set.disjoint_left.1 hdisj hx
        ⟨d, hd, start_mem hpos⟩]
  · rcases hmem hd with rfl | hd
    · show 0 < 8 * rest
      omega
    · exact hL.pos d (subset_insert hd)
  · rcases hmem hd with rfl | hd
    · exact hlow
    · exact hL.low d (subset_insert hd)
  · exact (hout fun hx => hlow.not_ge hx.1).trans hL.base
  · rw [hstarts]
    show h.prevOf l1 ∈ _
    rw [List.map_append, ← List.cons_append]
    exact List.mem_append_left _ endOf_mem
  · exact update_self ..
  · simp only [cells_append, cells_cons, hcells]
    ext x
    simp only [Set.mem_union]
    tauto
  · refine Set.disjoint_left.2 fun x hx hx' => ?_
    have hxb : x ∈ b.cells := hcells ▸ .inr hx
    simp only [cells_append, cells_cons, Set.mem_union] at hx'
    rcases hx' with hx' | hx' | hx'
    · exact Set.disjoint_left.1 hdisj hxb (by simp [hx'])
    · exact absurd hx'.2 (not_lt.2 hx.1)
    · exact Set.disjoint_left.1 hdisj hxb (by simp [hx'])
  · simp only [total_append, total_cons]
    omega

/-- **A block that is large enough is found and taken.** -/
theorem takeFrom_spec {n x : Nat} (hL : Listed h L) (hn : 0 < n) (hx : x ∈ h.base ::
    L.map Span.start)
    (hfits : n ≤ h.size (h.ptr x)) :
    ∃ new h' L', h.takeFrom n x (h.ptr x) = (new.start + 8, h') ∧ Taken h L n new h' L' := by
  have hmem : h.ptr x ∈ L.map Span.start := by
    rcases List.mem_append.1 (hL.chain.next_mem hx) with hmem | hmem
    · exact hmem
    · rw [List.mem_singleton.1 hmem, hL.base] at hfits
      omega
  obtain ⟨b, hb, hstart⟩ := List.mem_map.1 hmem
  obtain ⟨l1, l2, rfl⟩ := List.append_of_mem hb
  have hprev : x = h.prevOf l1 := by
    have hchain := hL.chain
    have hnodup := hL.nodup
    rw [List.map_append, List.map_cons] at hchain hnodup hx
    exact hchain.pred_unique hnodup hx hstart.symm
  rw [← hstart] at hfits ⊢
  unfold Heap.takeFrom
  by_cases hsize : h.size b.start = n
  · rw [if_pos hsize, hprev]
    exact ⟨b, _, _, rfl, hsize ▸ taken_whole hL⟩
  · rw [if_neg hsize, hprev]
    exact ⟨_, _, _, rfl, taken_end hL hn (lt_of_le_of_ne hfits (Ne.symm hsize))⟩

/-- **One way around the list**: a block that is large enough is taken, or there is none and
`morecore` is called. -/
theorem mallocLoop_spec (n : Nat) (answer : Option Nat) {m : List Nat} {prevp : Nat}
    (hchain : Chain h.ptr prevp m h.freep) (hm : h.freep ∉ m) :
    (∃ x ∈ prevp :: m, n ≤ h.size (h.ptr x) ∧ ∀ fuel,
        Heap.mallocLoop n answer (fuel + (m.length + 1)) h prevp (h.ptr prevp)
          = some (h.takeFrom n x (h.ptr x))) ∨
      ((∀ y ∈ m ++ [h.freep], h.size y < n) ∧ ∀ fuel,
        Heap.mallocLoop n answer (fuel + (m.length + 1)) h prevp (h.ptr prevp)
          = (h.morecore fuel n answer).bind fun (r, h') =>
              if r = 0 then some (0, h') else Heap.mallocLoop n answer fuel h' r (h'.ptr r)) := by
  induction m generalizing prevp with
  | nil =>
    have hnext : h.ptr prevp = h.freep := hchain
    by_cases hfits : n ≤ h.size (h.ptr prevp)
    · refine .inl ⟨prevp, List.mem_cons_self, hfits, fun fuel => ?_⟩
      rw [List.length_nil, Heap.mallocLoop, if_pos hfits]
    · refine .inr ⟨fun y hy => ?_, fun fuel => ?_⟩
      · rw [List.mem_singleton.1 hy, ← hnext]
        exact not_le.1 hfits
      · rw [List.length_nil, Heap.mallocLoop, if_neg hfits, if_pos hnext]
  | cons y m ih =>
    obtain ⟨hnext, hchain'⟩ := hchain
    have hy : y ≠ h.freep := fun heq => hm (heq ▸ List.mem_cons_self)
    by_cases hfits : n ≤ h.size y
    · refine .inl ⟨prevp, List.mem_cons_self, hnext ▸ hfits, fun fuel => ?_⟩
      rw [← Nat.add_assoc, Heap.mallocLoop, if_pos (hnext ▸ hfits)]
    · have hgo : ∀ fuel, Heap.mallocLoop n answer (fuel + (y :: m).length + 1) h prevp (h.ptr prevp)
          = Heap.mallocLoop n answer (fuel + (m.length + 1)) h y (h.ptr y) := by
        intro fuel
        rw [← Nat.add_assoc, Heap.mallocLoop, hnext, if_neg hfits, if_neg hy]
        rfl
      rcases ih hchain' fun hmem => hm (List.mem_cons_of_mem y hmem) with
        ⟨x, hx, hxfits, hloop⟩ | ⟨hsmall, hloop⟩
      · exact .inl ⟨x, List.mem_cons_of_mem _ hx, hxfits, fun fuel => (hgo fuel).trans (hloop fuel)⟩
      · refine .inr ⟨fun z hz => ?_, fun fuel => (hgo fuel).trans (hloop fuel)⟩
        rcases List.mem_cons.1 hz with rfl | hz
        · exact not_le.1 hfits
        · exact hsmall z hz

theorem Listed.around (hL : Listed h L) :
    ∃ m, Chain h.ptr h.freep m h.freep ∧ h.freep ∉ m ∧
      ∀ y, y ∈ h.freep :: m ↔ y ∈ h.base :: L.map Span.start := by
  rcases List.mem_cons.1 hL.freep with heq | hmem
  · refine ⟨L.map Span.start, ?_, ?_, ?_⟩
    · rw [heq]
      exact hL.chain
    · rw [heq]
      exact (List.nodup_cons.1 hL.nodup).1
    · rw [heq]
      exact fun _ => Iff.rfl
  · obtain ⟨l1, l2, hsplit⟩ := List.append_of_mem hmem
    have hchain := hL.chain
    have hnodup := hL.nodup
    rw [hsplit] at hchain hnodup ⊢
    refine ⟨l2 ++ h.base :: l1, hchain.rotate, ?_, fun y => ?_⟩
    · have hperm : (h.base :: (l1 ++ h.freep :: l2)).Perm (h.freep :: (l2 ++ h.base :: l1)) := by
        calc (h.base :: l1) ++ (h.freep :: l2)
            _ |>.Perm ((h.freep :: l2) ++ (h.base :: l1)) := List.perm_append_comm
      exact (List.nodup_cons.1 (hperm.nodup_iff.1 hnodup)).1
    · simp only [List.mem_cons, List.mem_append]
      tauto

theorem le_coreUnits (n : Nat) : n ≤ Heap.coreUnits n ∧ 0 < Heap.coreUnits n := by
  unfold Heap.coreUnits
  split
  · omega
  · omega

theorem morecore_mono {fuel fuel' nu : Nat} {answer : Option Nat} {x : Nat × Heap}
    (hle : fuel ≤ fuel')
    (hmore : h.morecore fuel nu answer = some x) : h.morecore fuel' nu answer = some x := by
  cases answer with
  | none => exact hmore
  | some a =>
    simp only [Heap.morecore] at hmore ⊢
    by_cases hgives : h.Gives (8 * Heap.coreUnits nu) a
    · rw [if_pos hgives] at hmore ⊢
      obtain ⟨h', hfree, rfl⟩ := Option.map_eq_some_iff.1 hmore
      rw [free_mono hle hfree]
      rfl
    · rw [if_neg hgives] at hmore
      cases hmore

theorem mallocLoop_mono {n fuel fuel' prevp p : Nat} {answer : Option Nat} {x : Nat × Heap}
    (hle : fuel ≤ fuel') (hloop : Heap.mallocLoop n answer fuel h prevp p = some x) :
    Heap.mallocLoop n answer fuel' h prevp p = some x := by
  induction fuel generalizing fuel' h prevp p with
  | zero => cases hloop
  | succ fuel ih =>
    obtain ⟨k, rfl⟩ : ∃ k, fuel' = k + 1 := ⟨fuel' - 1, by omega⟩
    have hk : fuel ≤ k := by omega
    rw [Heap.mallocLoop] at hloop ⊢
    by_cases hfits : n ≤ h.size p
    · rwa [if_pos hfits] at hloop ⊢
    rw [if_neg hfits] at hloop ⊢
    by_cases hround : p = h.freep
    · rw [if_pos hround] at hloop ⊢
      obtain ⟨⟨r, h'⟩, hmore, hrest⟩ := Option.bind_eq_some_iff.1 hloop
      rw [morecore_mono hk hmore, Option.bind_some]
      dsimp only at hrest ⊢
      by_cases hr : r = 0
      · rwa [if_pos hr] at hrest ⊢
      · rw [if_neg hr] at hrest ⊢
        exact ih hk hrest
    · rw [if_neg hround] at hloop ⊢
      exact ih hk hloop

/-! ## Programs -/

/-- The heap and the blocks in use, with their headers. -/
structure World where
  heap : Heap
  live : List Span

namespace World

/-- `malloc(nbytes)`. -/
def malloc (w : World) (fuel nbytes : Nat) (answer : Option Nat) : Option (Nat × World) :=
  (w.heap.malloc fuel nbytes answer).map fun (r, h') =>
    (r, ⟨h', if r = 0 then w.live else ⟨r - 8, 8 * h'.size (r - 8)⟩ :: w.live⟩)

/-- `free` of a block in use. -/
def free (w : World) (fuel : Nat) (b : Span) : Option World :=
  (w.heap.free fuel (b.start + 8)).map fun h' => ⟨h', w.live.erase b⟩

/-- Nothing was allocated yet; the headers are any memory. -/
def boot (ptr size : Nat → Nat) (base brk : Nat) : World where
  heap := { ptr, size, freep := 0, base, brk, given := [] }
  live := []

/-- The program writes two words into a block of its own. -/
def write (w : World) (x ptr size : Nat) : World where
  heap := { w.heap with
    ptr := update w.heap.ptr x ptr
    size := update w.heap.size x size }
  live := w.live

/-- What the program does; a call comes with the rounds its loops are given. -/
inductive Event
  | malloc (nbytes : Nat) (answer : Option Nat) (fuel : Nat)
  | free (b : Span) (fuel : Nat)
  | write (b : Span) (x ptr size : Nat)

/-- One step of the program. -/
def step (w : World) : Event → Option World
  | .malloc nbytes answer fuel => (w.malloc fuel nbytes answer).map Prod.snd
  | .free b fuel => w.free fuel b
  | .write _ x ptr size => some (w.write x ptr size)

/-- A request whose units fit into an `int`. -/
def Small (nbytes : Nat) : Prop := ((nbytes + 7) / 8 + 1) * 8 < 2 ^ 31

/-- Requests are small, only blocks in use are freed, and only their bytes behind the header are
written. -/
def Allowed (w : World) : Event → Prop
  | .malloc nbytes _ _ => Small nbytes
  | .free b _ => b ∈ w.live
  | .write b x _ _ => b ∈ w.live ∧ b.start + 8 ≤ x ∧ x + 8 ≤ b.stop

instance (w : World) : ∀ e, Decidable (w.Allowed e)
  | .malloc nbytes _ _ => inferInstanceAs (Decidable (((nbytes + 7) / 8 + 1) * 8 < 2 ^ 31))
  | .free b _ => inferInstanceAs (Decidable (b ∈ w.live))
  | .write b x _ _ => inferInstanceAs (Decidable (b ∈ w.live ∧ b.start + 8 ≤ x ∧ x + 8 ≤ b.stop))

/-! ### The invariant -/

/-- **A heap in order**, with the free blocks `L`. -/
structure Sound (w : World) (L : List Span) : Prop where
  listed : Listed w.heap L
  len : ∀ b ∈ w.live, b.len = 8 * w.heap.size b.start
  pos : ∀ b ∈ w.live, 0 < b.len
  apart : w.live.Pairwise fun a b => Disjoint a.cells b.cells
  free_apart : Disjoint (cells w.live) (cells L)
  cells_eq : cells w.live ∪ cells L = cells w.heap.given
  total_eq : total w.live + total L = total w.heap.given
  above : ∀ x ∈ cells w.heap.given, w.heap.base + 8 ≤ x ∧ x < w.heap.brk
  base_pos : 0 < w.heap.base
  base_le : w.heap.base + 8 ≤ w.heap.brk

/-- Before the first call. -/
structure Unused (w : World) : Prop where
  freep : w.heap.freep = 0
  live : w.live = []
  given : w.heap.given = []
  base_pos : 0 < w.heap.base
  base_le : w.heap.base + 8 ≤ w.heap.brk

variable {w : World}

theorem Unused.init (hw : w.Unused) : Sound ⟨w.heap.init, w.live⟩ [] := by
  have hheap : w.heap.init = { w.heap with
      ptr := update w.heap.ptr w.heap.base w.heap.base
      size := update w.heap.size w.heap.base 0
      freep := w.heap.base } := by
    rw [Heap.init, if_pos hw.freep]
  rw [hheap, hw.live]
  refine ⟨⟨?_, by simp, by simp, List.Pairwise.nil, by simp, ?_, ?_⟩, by simp, by simp,
    List.Pairwise.nil, by simp, ?_, ?_, ?_, hw.base_pos, hw.base_le⟩
  · exact update_self ..
  · exact update_self ..
  · exact List.mem_cons_self
  · simp [hw.given]
  · simp [hw.given]
  · simp [hw.given]

section

variable (hw : w.Sound L)

include hw

theorem Sound.freep_ne : w.heap.freep ≠ 0 := by
  have hbase := hw.base_pos
  rcases List.mem_cons.1 hw.listed.freep with heq | hmem
  · omega
  · obtain ⟨b, hb, heq⟩ := List.mem_map.1 hmem
    have := hw.listed.low b hb
    omega

theorem Sound.init : w.heap.init = w.heap := if_neg hw.freep_ne

theorem Sound.start_notMem (hb : b ∈ w.live) : b.start ∉ cells L := fun hx =>
  Set.disjoint_left.1 hw.free_apart ⟨b, hb, start_mem (hw.pos b hb)⟩ hx

theorem Sound.move {h' : Heap} {live : List Span} {L' : List Span} (hsame : Same w.heap h')
    (hL' : Listed h' L') (hlive : ∀ b ∈ live, b.len = 8 * h'.size b.start ∧ 0 < b.len)
    (hapart : live.Pairwise fun a b => Disjoint a.cells b.cells)
      (hfree : Disjoint (cells live) (cells L'))
    (hcells : cells live ∪ cells L' = cells w.live ∪ cells L)
    (htotal : total live + total L' = total w.live + total L) : Sound ⟨h', live⟩ L' := by
  obtain ⟨hbase, hbrk, hgiven⟩ := hsame
  refine ⟨hL', fun b hb => (hlive b hb).1, fun b hb => (hlive b hb).2, hapart, hfree,
    hcells.trans (hw.cells_eq.trans ?_), htotal.trans (hw.total_eq.trans ?_), ?_, ?_, ?_⟩
  · rw [hgiven]
  · rw [hgiven]
  · rw [hgiven, hbase, hbrk]
    exact hw.above
  · rw [hbase]
    exact hw.base_pos
  · rw [hbase, hbrk]
    exact hw.base_le

theorem Sound.take {n : Nat} {new : Span} {h' : Heap} {L' : List Span} (hn : 0 < n)
    (ht : Taken w.heap L n new h' L') : Sound ⟨h', new :: w.live⟩ L' := by
  have hcells := ht.cells
  have hsub : cells L' ⊆ cells L := hcells ▸ Set.subset_union_left
  have hnew : new.cells ⊆ cells L := hcells ▸ Set.subset_union_right
  refine hw.move ht.same ht.listed (fun b hb => ?_)
    (List.pairwise_cons.2 ⟨fun b hb => ?_, hw.apart⟩) ?_ ?_ ?_
  · rcases List.mem_cons.1 hb with rfl | hb
    · rw [ht.size, ht.len]
      exact ⟨rfl, by omega⟩
    · rw [ht.outside _ (hw.start_notMem hb)]
      exact ⟨hw.len b hb, hw.pos b hb⟩
  · refine (hw.free_apart.mono ?_ hnew).symm
    exact fun x hx => ⟨b, hb, hx⟩
  · rw [cells_cons, Set.disjoint_union_left]
    exact ⟨ht.disjoint, hw.free_apart.mono_right hsub⟩
  · rw [hcells, cells_cons]
    ext x
    simp only [Set.mem_union]
    tauto
  · rw [ht.total, total_cons]
    omega

/-- **`sbrk` gives memory**, which is a block in use until it is freed. -/
theorem Sound.given {nu a : Nat} (hnu : 0 < nu) (hgives : w.heap.Gives (8 * nu) a) :
    Sound ⟨w.heap.grown nu a, ⟨a, 8 * nu⟩ :: w.live⟩ L := by
  have hbrk := hgives.1
  have hle := hw.base_le
  have hold : ∀ {l : List Span} {x}, cells l ⊆ cells w.heap.given → x ∈ cells l → x < a :=
    fun hl hx => (hw.above _ (hl hx)).2.trans_le hbrk
  have hlive : cells w.live ⊆ cells w.heap.given := hw.cells_eq ▸ Set.subset_union_left
  have hfree : cells L ⊆ cells w.heap.given := hw.cells_eq ▸ Set.subset_union_right
  -- the new memory is behind everything else
  have hnew : ∀ {l : List Span}, cells l ⊆ cells w.heap.given →
      Disjoint (Span.cells ⟨a, 8 * nu⟩) (cells l) := fun hl =>
    Set.disjoint_left.2 fun x hx hx' => absurd hx.1 (not_le.2 (hold hl hx'))
  refine ⟨{ hw.listed with len := fun d hd => ?_, base := ?_ }, fun b hb => ?_, fun b hb => ?_,
    List.pairwise_cons.2 ⟨fun b hb => ?_, hw.apart⟩, ?_, ?_, ?_, fun x hx => ?_, hw.base_pos, ?_⟩
  · show d.len = 8 * update w.heap.size a nu d.start
    rw [update_of_ne (hold hfree ⟨d, hd, start_mem (hw.listed.pos d hd)⟩).ne]
    exact hw.listed.len d hd
  · show update w.heap.size a nu w.heap.base = 0
    rw [update_of_ne (by omega)]
    exact hw.listed.base
  · show b.len = 8 * update w.heap.size a nu b.start
    rcases List.mem_cons.1 hb with rfl | hb
    · rw [update_self]
    · rw [update_of_ne (hold hlive ⟨b, hb, start_mem (hw.pos b hb)⟩).ne]
      exact hw.len b hb
  · rcases List.mem_cons.1 hb with rfl | hb
    · show 0 < 8 * nu
      omega
    · exact hw.pos b hb
  · exact (hnew hlive).mono_right fun x hx => (⟨b, hb, hx⟩ : ∃ c ∈ w.live, x ∈ c.cells)
  · rw [cells_cons, Set.disjoint_union_left]
    exact ⟨hnew hfree, hw.free_apart⟩
  · rw [cells_cons, Set.union_assoc, hw.cells_eq]
    exact cells_cons.symm
  · rw [total_cons, Nat.add_assoc, hw.total_eq]
    exact total_cons.symm
  · show w.heap.base + 8 ≤ x ∧ x < a + 8 * nu
    rcases cells_cons (l := w.heap.given) ▸ hx with hx | hx
    · have hge : a ≤ x := hx.1
      have hlt : x < a + 8 * nu := hx.2
      omega
    · have := hw.above x hx
      omega
  · show w.heap.base + 8 ≤ a + 8 * nu
    omega

theorem Sound.freed (hb : b ∈ w.live) :
    ∃ h' L', (∃ K, ∀ fuel, K ≤ fuel → w.heap.free fuel (b.start + 8) = some h') ∧
      Sound ⟨h', w.live.erase b⟩ L' ∧ ∃ d ∈ L', b.len ≤ d.len := by
  have hbcells : b.cells ⊆ cells w.live := fun x hx => ⟨b, hb, hx⟩
  have habove := hw.above b.start (hw.cells_eq ▸ .inl (hbcells (start_mem (hw.pos b hb))))
  obtain ⟨h', L', hfree, hL', hcells, htotal, hle, hsame, hout⟩ :=
    free_spec hw.listed (hw.pos b hb) (hw.len b hb) (by omega) (hw.free_apart.mono_left hbcells)
  refine ⟨h', L', hfree, ?_, hle⟩
  have hperm : w.live.Perm (b :: w.live.erase b) := List.perm_cons_erase hb
  have hsymm : ∀ {x y : Span}, Disjoint x.cells y.cells → Disjoint y.cells x.cells :=
    fun h => h.symm
  obtain ⟨hbapart, hrest⟩ := List.pairwise_cons.1 ((hperm.pairwise_iff hsymm).1 hw.apart)
  have hmem : ∀ {c}, c ∈ w.live.erase b → c ∈ w.live := fun hc => List.mem_of_mem_erase hc
  have hlive : cells w.live = b.cells ∪ cells (w.live.erase b) := by
    rw [← cells_cons]
    ext x
    simp only [cells, Set.mem_ofPred_eq]
    exact exists_congr fun c => and_congr_left' hperm.mem_iff
  have htlive : total w.live = b.len + total (w.live.erase b) := by
    rw [← total_cons]
    exact (hperm.map Span.len).sum_nat
  have hstart : ∀ {c}, c ∈ w.live.erase b → c.start ∉ b.cells := fun {c} hc hx =>
    Set.disjoint_left.1 (hbapart c hc) hx (start_mem (hw.pos c (hmem hc)))
  refine hw.move hsame hL' (fun c hc => ⟨?_, hw.pos c (hmem hc)⟩) hrest ?_ ?_ ?_
  · rw [hout _ (hw.start_notMem (hmem hc)) (hstart hc)]
    exact hw.len c (hmem hc)
  · rw [hcells, Set.disjoint_union_right]
    refine ⟨hw.free_apart.mono_left (hlive ▸ Set.subset_union_right), ?_⟩
    refine Set.disjoint_left.2 ?_
    rintro x ⟨c, hc, hx⟩ hx'
    exact Set.disjoint_left.1 (hbapart c hc) hx' hx
  · rw [hlive, hcells]
    ext x
    simp only [Set.mem_union]
    tauto
  · rw [htlive, htotal]
    omega

/-- **A program writes** behind the header of a block of its own. -/
theorem Sound.write {x ptr size : Nat} (hb : b ∈ w.live) (hlow : b.start + 8 ≤ x)
    (hhigh : x + 8 ≤ b.stop) : (w.write x ptr size).Sound L := by
  have hx : x ∈ b.cells := ⟨by omega, by omega⟩
  have hlive : x ∈ cells w.live := ⟨b, hb, hx⟩
  have hfree : x ∉ cells L := Set.disjoint_left.1 hw.free_apart hlive
  have hbase : x ≠ w.heap.base := by
    have := hw.above x (hw.cells_eq ▸ .inl hlive)
    omega
  have hlisted : ∀ {c}, c ∈ L → c.start ≠ x := by
    rintro c hc rfl
    exact hfree ⟨c, hc, start_mem (hw.listed.pos c hc)⟩
  have hused : ∀ {c}, c ∈ w.live → c.start ≠ x := by
    rintro c hc rfl
    by_cases heq : c = b
    · subst heq
      omega
    · have : Std.Symm fun x y : Span => Disjoint x.cells y.cells := ⟨fun _ _ h => h.symm⟩
      exact Set.disjoint_left.1 (hw.apart.forall hc hb heq) (start_mem (hw.pos c hc)) hx
  refine ⟨⟨?_, fun c hc => ?_, hw.listed.pos, hw.listed.spaced, hw.listed.low, ?_, hw.listed.freep⟩,
    fun c hc => ?_, hw.pos, hw.apart, hw.free_apart, hw.cells_eq, hw.total_eq,
      hw.above, hw.base_pos,
    hw.base_le⟩
  · refine hw.listed.chain.update_of_notMem fun hmem => ?_
    rcases List.mem_cons.1 hmem with heq | hmem
    · exact hbase heq
    · obtain ⟨c, hc, heq⟩ := List.mem_map.1 hmem
      exact hlisted hc heq
  · show c.len = 8 * update w.heap.size x size c.start
    rw [update_of_ne (hlisted hc)]
    exact hw.listed.len c hc
  · show update w.heap.size x size w.heap.base = 0
    rw [update_of_ne hbase.symm]
    exact hw.listed.base
  · show c.len = 8 * update w.heap.size x size c.start
    rw [update_of_ne (hused hc)]
    exact hw.len c hc

end

/-! ### Calls -/

/-- What the loop of `malloc` returns: nothing, or a block that was taken. -/
inductive Answered (w : World) (n : Nat) : Nat → Heap → Prop
  | failed : Answered w n 0 w.heap
  | block {new h' L'} (len : new.len = 8 * n) (sound : Sound ⟨h', new :: w.live⟩ L') :
      Answered w n (new.start + 8) h'

section

variable {n : Nat} {answer : Option Nat} (hw : w.Sound L) (hn : 0 < n)

include hw hn

theorem Sound.takes {x : Nat} (hx : x ∈ w.heap.base :: L.map Span.start)
    (hfits : n ≤ w.heap.size (w.heap.ptr x)) :
    ∃ new h' L', w.heap.takeFrom n x (w.heap.ptr x) = (new.start + 8, h') ∧ new.len = 8 * n ∧
      Sound ⟨h', new :: w.live⟩ L' := by
  obtain ⟨new, h', L', htake, ht⟩ := takeFrom_spec hw.listed hn hx hfits
  exact ⟨new, h', L', htake, ht.len, hw.take hn ht⟩

/-- **The loop of `malloc` comes to its end**, and calls `sbrk` once at most. -/
theorem Sound.loop_answers (hgives : ∀ a ∈ answer, w.heap.Gives (8 * Heap.coreUnits n) a) :
    ∃ r h', (∃ K, ∀ fuel, K ≤ fuel →
        Heap.mallocLoop n answer fuel w.heap w.heap.freep (w.heap.ptr w.heap.freep)
          = some (r, h')) ∧
      Answered w n r h' := by
  obtain ⟨m, hchain, hm, hmem⟩ := hw.listed.around
  rcases mallocLoop_spec n answer hchain hm with ⟨x, hx, hfits, hloop⟩ | ⟨hsmall, hloop⟩
  · obtain ⟨new, h', L', htake, hlen, hsound⟩ := hw.takes hn ((hmem x).1 hx) hfits
    refine ⟨_, h', ⟨m.length + 1, fun fuel hfuel => ?_⟩, .block hlen hsound⟩
    obtain ⟨k, rfl⟩ := Nat.exists_eq_add_of_le' hfuel
    rw [hloop, htake]
  cases answer with
  | none =>
    refine ⟨0, w.heap, ⟨m.length + 1, fun fuel hfuel => ?_⟩, .failed⟩
    obtain ⟨k, rfl⟩ := Nat.exists_eq_add_of_le' hfuel
    rw [hloop]
    rfl
  | some a =>
    have hgive := hgives a rfl
    obtain ⟨hle, hpos⟩ := le_coreUnits n
    obtain ⟨h1, L1, ⟨K1, hfree⟩, hw1, d, hd, hdlen⟩ :=
      (hw.given hpos hgive).freed List.mem_cons_self
    rw [List.erase_cons_head] at hw1
    obtain ⟨m1, hchain1, hm1, hmem1⟩ := hw1.listed.around
    rcases mallocLoop_spec n (some a) hchain1 hm1 with ⟨x, hx, hfits, hloop1⟩ | ⟨hsmall1, -⟩
    · obtain ⟨new, h', L', htake, hlen, hsound⟩ := hw1.takes hn ((hmem1 x).1 hx) hfits
      refine ⟨_, h', ⟨K1 + (m1.length + 1) + (m.length + 1), fun fuel hfuel => ?_⟩,
        .block hlen hsound⟩
      obtain ⟨j, rfl⟩ := Nat.exists_eq_add_of_le' hfuel
      rw [← Nat.add_assoc, hloop, ← Nat.add_assoc, Heap.morecore]
      dsimp only
      rw [if_pos hgive, hfree _ (by omega)]
      dsimp only [Option.map_some, Option.bind_some]
      rw [if_neg hw1.freep_ne, hloop1, htake]
    · -- the new memory is a part of a block that is large enough
      exfalso
      have hdsize := hw1.listed.len d hd
      have hin : d.start ∈ h1.freep :: m1 :=
        (hmem1 _).2 (List.mem_cons_of_mem _ (List.mem_map_of_mem hd))
      have hlt : h1.size d.start < n := hsmall1 _ (by
        rcases List.mem_cons.1 hin with heq | hin
        · exact List.mem_append_right _ (List.mem_singleton.2 heq)
        · exact List.mem_append_left _ hin)
      dsimp only at hdlen hdsize
      omega

/-- **What a call of `malloc` that returns has done.** -/
theorem Sound.answered_of_loop {fuel r : Nat} {h' : Heap}
    (hloop : Heap.mallocLoop n answer fuel w.heap
      w.heap.freep (w.heap.ptr w.heap.freep) = some (r, h')) : Answered w n r h' := by
  by_cases hgives : ∀ a ∈ answer, w.heap.Gives (8 * Heap.coreUnits n) a
  · obtain ⟨r0, h0, ⟨K, hK⟩, hanswered⟩ := hw.loop_answers hn hgives
    have hlong := mallocLoop_mono (Nat.le_add_right fuel K) hloop
    rw [hK _ (Nat.le_add_left K fuel)] at hlong
    cases hlong
    exact hanswered
  -- `sbrk` cannot give this answer, so it was not asked
  obtain ⟨m, hchain, hm, hmem⟩ := hw.listed.around
  have hlong := mallocLoop_mono (Nat.le_add_right fuel (m.length + 1)) hloop
  rcases mallocLoop_spec n answer hchain hm with ⟨x, hx, hfits, hfound⟩ | ⟨-, hnone⟩
  · obtain ⟨new, h1, L', htake, hlen, hsound⟩ := hw.takes hn ((hmem x).1 hx) hfits
    rw [hfound, htake] at hlong
    cases hlong
    exact .block hlen hsound
  · push Not at hgives
    obtain ⟨a, ha, hno⟩ := hgives
    rw [hnone, Option.mem_def.1 ha] at hlong
    simp only [Heap.morecore, if_neg hno, Option.bind_none] at hlong
    cases hlong

end

/-- **A program in order**: it made no call yet, or its heap is in order. -/
def InOrder (w : World) : Prop := w.Unused ∨ ∃ L, w.Sound L

theorem InOrder.init (hw : w.InOrder) : ∃ L, Sound ⟨w.heap.init, w.live⟩ L := by
  rcases hw with hw | ⟨L, hw⟩
  · exact ⟨[], hw.init⟩
  · refine ⟨L, ?_⟩
    rw [hw.init]
    exact hw

theorem InOrder.sound (hw : w.InOrder) (hb : b ∈ w.live) : ∃ L, w.Sound L := by
  refine hw.resolve_left fun hunused => ?_
  rw [hunused.live] at hb
  cases hb

theorem brk_init (h : Heap) : h.init.brk = h.brk := by
  unfold Heap.init
  split
  · rfl
  · rfl

theorem nunits_of_small {nbytes : Nat} (hsmall : Small nbytes) :
    nbytes + 8 ≤ 8 * Heap.nunits nbytes := by
  unfold Small at hsmall
  have hlt : nbytes + 8 - 1 < 2 ^ 32 := by omega
  rw [Heap.nunits, Nat.mod_eq_of_lt hlt]
  omega

/-- **What `malloc(nbytes)` has returned** while the blocks `live` were in use: nothing, or a block
that is large enough, in memory that `sbrk` gave and apart from every block in use. -/
inductive Returned (live : List Span) (nbytes : Nat) : Nat → World → Prop
  | nothing {h'} : Returned live nbytes 0 ⟨h', live⟩
  | block {new h'} (room : nbytes + 8 ≤ new.len) (inside : new.cells ⊆ cells h'.given)
      (apart : ∀ b ∈ live, Disjoint new.cells b.cells) :
      Returned live nbytes (new.start + 8) ⟨h', new :: live⟩

theorem Answered.returned {n nbytes r : Nat} {h' : Heap} (h : Answered w n r h') (hw : w.Sound L)
    (hroom : nbytes + 8 ≤ 8 * n) :
    let w' : World := ⟨h', if r = 0 then w.live else ⟨r - 8, 8 * h'.size (r - 8)⟩ :: w.live⟩
    (∃ L', w'.Sound L') ∧ Returned w.live nbytes r w' := by
  cases h with
  | failed => exact ⟨⟨L, hw⟩, .nothing⟩
  | @block new _ L' len sound =>
    have hnew : (⟨new.start + 8 - 8, 8 * h'.size (new.start + 8 - 8)⟩ : Span) = new := by
      rw [Nat.add_sub_cancel, ← sound.len new List.mem_cons_self]
    dsimp only
    rw [if_neg (by omega), hnew]
    refine ⟨⟨L', sound⟩, .block (len ▸ hroom) (fun x hx => ?_) (List.pairwise_cons.1 sound.apart).1⟩
    rw [← sound.cells_eq, cells_cons]
    exact .inl (.inl hx)

/-- **`malloc` keeps the heap in order**, and returns what was asked for. -/
theorem InOrder.malloc {fuel nbytes r : Nat} {answer : Option Nat} {w' : World} (hw : w.InOrder)
    (hsmall : Small nbytes) (hcall : w.malloc fuel nbytes answer = some (r, w')) :
    w'.InOrder ∧ Returned w.live nbytes r w' := by
  obtain ⟨L, hinit⟩ := hw.init
  obtain ⟨⟨r0, h'⟩, hloop, heq⟩ := Option.map_eq_some_iff.1 hcall
  cases heq
  obtain ⟨hsound, hreturned⟩ :=
    (hinit.answered_of_loop (Nat.succ_pos _) hloop).returned hinit (nunits_of_small hsmall)
  exact ⟨.inr hsound, hreturned⟩

theorem InOrder.malloc_ends {nbytes : Nat} {answer : Option Nat} (hw : w.InOrder)
    (hgives : ∀ a ∈ answer, w.heap.Gives (8 * Heap.coreUnits (Heap.nunits nbytes)) a) :
    ∃ K r w', ∀ fuel, K ≤ fuel → w.malloc fuel nbytes answer = some (r, w') := by
  obtain ⟨L, hinit⟩ := hw.init
  have hgives' : ∀ a ∈ answer, w.heap.init.Gives (8 * Heap.coreUnits (Heap.nunits nbytes)) a := by
    unfold Heap.Gives at hgives ⊢
    rwa [brk_init]
  obtain ⟨r, h', ⟨K, hK⟩, -⟩ := hinit.loop_answers (Nat.succ_pos _) hgives'
  refine ⟨K, r, ⟨h', if r = 0 then w.live else ⟨r - 8, 8 * h'.size (r - 8)⟩ :: w.live⟩,
    fun fuel hfuel => ?_⟩
  have hcall : w.heap.malloc fuel nbytes answer = some (r, h') := hK fuel hfuel
  rw [World.malloc, hcall]
  rfl

theorem Sound.free_ends (hw : w.Sound L) (hb : b ∈ w.live) :
    ∃ K w', (∀ fuel, K ≤ fuel → w.free fuel b = some w') ∧ w'.InOrder ∧
      w'.live = w.live.erase b := by
  obtain ⟨h', L', ⟨K, hfree⟩, hsound, -⟩ := hw.freed hb
  refine ⟨K, ⟨h', w.live.erase b⟩, fun fuel hfuel => ?_, .inr ⟨L', hsound⟩, rfl⟩
  rw [World.free, hfree fuel hfuel]
  rfl

theorem InOrder.free {fuel : Nat} {w' : World} (hw : w.InOrder) (hb : b ∈ w.live)
    (hcall : w.free fuel b = some w') : w'.InOrder := by
  obtain ⟨L, hsound⟩ := hw.sound hb
  obtain ⟨K, w0, hK, hw0, -⟩ := hsound.free_ends hb
  obtain ⟨h', hfree, rfl⟩ := Option.map_eq_some_iff.1 hcall
  have hlong := hK (fuel + K) (Nat.le_add_left K fuel)
  rw [World.free, free_mono (Nat.le_add_right fuel K) hfree] at hlong
  cases hlong
  exact hw0

theorem InOrder.step {e : Event} {w' : World} (hw : w.InOrder) (hallowed : w.Allowed e)
    (hstep : w.step e = some w') : w'.InOrder := by
  cases e with
  | malloc nbytes answer fuel =>
    obtain ⟨⟨r, w''⟩, hcall, rfl⟩ := Option.map_eq_some_iff.1 hstep
    exact (hw.malloc hallowed hcall).1
  | free b fuel => exact hw.free hallowed hstep
  | write b x ptr size =>
    obtain ⟨hb, hlow, hhigh⟩ := hallowed
    obtain ⟨L, hsound⟩ := hw.sound hb
    cases hstep
    exact .inr ⟨L, hsound.write hb hlow hhigh⟩

/-- **The user's heap is correct.** Let a program make small requests, free blocks it has, and write
into them. Then its heap is in order: the list is a cycle in the order of addresses in which no
block touches the next; blocks in use overlap neither each other nor free ones, and both together
are the memory `sbrk` gave. Every call of `malloc` ends, with nothing or with a new block that is
large enough; every call of `free` ends. -/
theorem heap_correct {ptr size : Nat → Nat} {base brk : Nat} (hbase : 0 < base)
    (hbrk : base + 8 ≤ brk)
    (hrun : Run step Allowed (boot ptr size base brk) w) :
    w.InOrder ∧
      (∀ nbytes answer, Small nbytes →
        (∀ a ∈ answer, w.heap.Gives (8 * Heap.coreUnits (Heap.nunits nbytes)) a) →
        ∃ K r w', (∀ fuel, K ≤ fuel → w.malloc fuel nbytes answer = some (r, w')) ∧
          w'.InOrder ∧ Returned w.live nbytes r w') ∧
      ∀ b ∈ w.live, ∃ K w', (∀ fuel, K ≤ fuel → w.free fuel b = some w') ∧ w'.InOrder ∧
        w'.live = w.live.erase b := by
  have hw : w.InOrder := by
    refine hrun.invariant InOrder (.inl ⟨rfl, rfl, rfl, hbase, hbrk⟩) ?_
    exact fun _ _ _ hw hallowed hstep => hw.step hallowed hstep
  refine ⟨hw, fun nbytes answer hsmall hgives => ?_, fun b hb => ?_⟩
  · obtain ⟨K, r, w', hK⟩ := hw.malloc_ends hgives
    exact ⟨K, r, w', hK, hw.malloc hsmall (hK K (Nat.le_refl K))⟩
  · obtain ⟨L, hsound⟩ := hw.sound hb
    exact hsound.free_ends hb

/-- Two blocks are asked for, one is written to, and the other is freed: the heap is in order, and
the block that is left can be freed too. -/
theorem heap_correct_two_blocks :
    ∃ w : World, Run step Allowed (boot (fun _ => 0) (fun _ => 0) 16 64) w ∧ w.InOrder ∧
      w.live = [⟨32688, 32⟩] ∧ ∃ K w', (∀ fuel, K ≤ fuel → w.free fuel ⟨32688, 32⟩ = some w') ∧
        w'.live = [] := by
  obtain ⟨w, hrun, hw⟩ := exists_run_of_runs step Allowed (boot (fun _ => 0) (fun _ => 0) 16 64)
    [.malloc 100 (some 64) 10, .malloc 20 none 10, .write ⟨32688, 32⟩ 32696 7 7,
      .free ⟨32720, 112⟩ 10]
    (fun w => decide (w.live = [⟨32688, 32⟩])) (by decide +kernel)
  have hlive : w.live = [⟨32688, 32⟩] := of_decide_eq_true hw
  obtain ⟨hinOrder, -, hfree⟩ := heap_correct (by decide) (by decide) hrun
  obtain ⟨K, w', hK, -, hlive'⟩ := hfree ⟨32688, 32⟩ (by rw [hlive]; exact List.mem_cons_self)
  refine ⟨w, hrun, hinOrder, hlive, K, w', hK, ?_⟩
  rw [hlive', hlive]
  exact List.erase_cons_head ..

end World

end Xv6.Malloc
