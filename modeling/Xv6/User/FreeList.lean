import Xv6.Foundation.Chain
import Xv6.Foundation.Spans

/-! # The free list of the user's heap

`malloc`, `free` and `morecore` of `umalloc.c`: a circular list of free blocks in the order of their
addresses. A block begins with a header that holds its size in units of `sizeof(Header)` and a
pointer. The loops are cut off after `fuel` rounds; that they end by themselves is a part of the
results.

`sbrk` either fails or gives memory behind everything it gave before, and behind `base`, which lies
in the program's data. What it gave is noted beside the heap.

* **`Malloc.Listed`** — the free list: a cycle of spaced blocks in the order of their addresses;
* **`Malloc.free_spec`** — `free` comes to its end, and gives a block back to the list. -/

namespace Xv6.Malloc

open Foundation Spans Function

/-- The headers of the blocks, the static variables, and the memory that `sbrk` gave. -/
structure Heap where
  ptr : Nat → Nat
  size : Nat → Nat
  freep : Nat
  base : Nat
  brk : Nat
  given : List Span

namespace Heap

/-- The condition under which the loop of `free` ends at `p`: that of the loop, or that of the
`break`. -/
def Stops (h : Heap) (bp p : Nat) : Prop :=
  (p < bp ∧ bp < h.ptr p) ∨ (h.ptr p ≤ p ∧ (p < bp ∨ bp < h.ptr p))

instance (h : Heap) (bp p : Nat) : Decidable (h.Stops bp p) := inferInstanceAs (Decidable (_ ∨ _))

/-- The loop of `free`: the block behind which `bp` belongs. -/
def findPlace (h : Heap) (bp : Nat) : Nat → Nat → Option Nat
  | 0, _ => none
  | fuel + 1, p => if h.Stops bp p then some p else h.findPlace bp fuel (h.ptr p)

/-- `bp` is joined with the block behind it, or points to it. -/
def joinNext (h : Heap) (bp p : Nat) : Heap :=
  if bp + 8 * h.size bp = h.ptr p then
    { h with
      size := update h.size bp (h.size bp + h.size (h.ptr p))
      ptr := update h.ptr bp (h.ptr (h.ptr p)) }
  else { h with ptr := update h.ptr bp (h.ptr p) }

/-- `bp` is joined with the block before it, or that one points to it. -/
def joinPrev (h : Heap) (bp p : Nat) : Heap :=
  if p + 8 * h.size p = bp then
    { h with
      size := update h.size p (h.size p + h.size bp)
      ptr := update h.ptr p (h.ptr bp) }
  else { h with ptr := update h.ptr p bp }

/-- `free(ap)`. -/
def free (h : Heap) (fuel ap : Nat) : Option Heap :=
  let bp := ap - 8
  (h.findPlace bp fuel h.freep).map fun p =>
    { (h.joinNext bp p).joinPrev bp p with freep := p }

/-- `sbrk` may give `n` bytes at `a`. -/
def Gives (h : Heap) (n a : Nat) : Prop := h.brk ≤ a ∧ a + n ≤ 2 ^ 32

instance (h : Heap) (n a : Nat) : Decidable (h.Gives n a) := inferInstanceAs (Decidable (_ ∧ _))

/-- The units that `morecore(nu)` asks for. -/
def coreUnits (nu : Nat) : Nat := if nu < 4096 then 4096 else nu

/-- `sbrk` has given `nu` units at `a`, and their header is written. -/
def grown (h : Heap) (nu a : Nat) : Heap :=
  { h with
    size := update h.size a nu
    brk := a + 8 * nu
    given := ⟨a, 8 * nu⟩ :: h.given }

/-- `morecore(nu)`, with the answer of `sbrk`. -/
def morecore (h : Heap) (fuel nu : Nat) (answer : Option Nat) : Option (Nat × Heap) :=
  match answer with
  | none => some (0, h)
  | some a =>
    if h.Gives (8 * coreUnits nu) a then
      ((h.grown (coreUnits nu) a).free fuel (a + 8)).map fun h' => (h'.freep, h')
    else none

/-- A block of `n` units is taken from block `p`, which comes after `prevp`. -/
def takeFrom (h : Heap) (n prevp p : Nat) : Nat × Heap :=
  if h.size p = n then
    (p + 8, { h with ptr := update h.ptr prevp (h.ptr p), freep := prevp })
  else
    let rest := h.size p - n
    let q := p + 8 * rest
    (q + 8, { h with
      size := update (update h.size p rest) q n
      freep := prevp })

/-- The loop of `malloc`. -/
def mallocLoop (n : Nat) (answer : Option Nat) : Nat → Heap → Nat → Nat → Option (Nat × Heap)
  | 0, _, _, _ => none
  | fuel + 1, h, prevp, p =>
    if n ≤ h.size p then some (h.takeFrom n prevp p)
    else if p = h.freep then
      (h.morecore fuel n answer).bind fun (r, h') =>
        if r = 0 then some (0, h') else mallocLoop n answer fuel h' r (h'.ptr r)
    else mallocLoop n answer fuel h p (h.ptr p)

/-- The list is made on the first call. -/
def init (h : Heap) : Heap :=
  if h.freep = 0 then
    { h with
      ptr := update h.ptr h.base h.base
      size := update h.size h.base 0
      freep := h.base }
  else h

/-- The units for `nbytes` bytes; the sum is one of `uint`s. -/
def nunits (nbytes : Nat) : Nat := (nbytes + 8 - 1) % 2 ^ 32 / 8 + 1

/-- `malloc(nbytes)`: what it returns, and the heap after it. -/
def malloc (h : Heap) (fuel nbytes : Nat) (answer : Option Nat) : Option (Nat × Heap) :=
  let h := h.init
  mallocLoop (nunits nbytes) answer fuel h h.freep (h.ptr h.freep)

end Heap

/-! ## The free list -/

/-- **The free list**: a cycle through `base` and the blocks `L`, in the order of addresses. -/
structure Listed (h : Heap) (L : List Span) : Prop where
  chain : Chain h.ptr h.base (L.map Span.start) h.base
  len : ∀ b ∈ L, b.len = 8 * h.size b.start
  pos : ∀ b ∈ L, 0 < b.len
  spaced : Spaced L
  low : ∀ b ∈ L, h.base < b.start
  base : h.size h.base = 0
  freep : h.freep ∈ h.base :: L.map Span.start

variable {h : Heap} {L l1 l2 : List Span} {b : Span}

theorem sorted_starts (hL : Spaced L) : (L.map Span.start).Pairwise (· < ·) := by
  refine List.pairwise_map.2 (hL.imp fun {a c} hac => ?_)
  unfold Span.stop at hac
  omega

theorem Listed.sorted (h' : Listed h L) : (h.base :: L.map Span.start).Pairwise (· < ·) := by
  refine List.pairwise_cons.2 ⟨fun x hx => ?_, sorted_starts h'.spaced⟩
  obtain ⟨b, hb, rfl⟩ := List.mem_map.1 hx
  exact h'.low b hb

theorem Listed.nodup (h' : Listed h L) : (h.base :: L.map Span.start).Nodup :=
  h'.sorted.imp fun hlt => Nat.ne_of_lt hlt

/-! ### The loop of `free` -/

theorem findPlace_up {bp : Nat} {l : List Nat} {a c : Nat} (hchain : Chain h.ptr a l c)
    (hsorted : (a :: l).Pairwise (· < ·)) (hlow : ∀ x ∈ a :: l, x < bp)
    (hend : h.Stops bp (endOf a l)) (fuel : Nat) :
    h.findPlace bp (fuel + l.length + 1) a = some (endOf a l) := by
  induction l generalizing a with
  | nil =>
    rw [endOf_nil] at hend ⊢
    rw [List.length_nil, Heap.findPlace, if_pos hend]
  | cons x l ih =>
    obtain ⟨hax, hsorted'⟩ := List.pairwise_cons.1 hsorted
    have hlt : a < x := hax x List.mem_cons_self
    have hx : x < bp := hlow x (by simp)
    have hgo : ¬ h.Stops bp a := by
      unfold Heap.Stops
      rw [hchain.1]
      omega
    rw [endOf_cons] at hend ⊢
    rw [List.length_cons, Heap.findPlace, if_neg hgo, hchain.1]
    exact ih hchain.2 hsorted' (fun y hy => hlow y (List.mem_cons_of_mem a hy)) hend

theorem findPlace_over {bp base : Nat} {l : List Nat} {a : Nat} (hchain : Chain h.ptr a l base)
    (hsorted : (a :: l).Pairwise (· < ·)) (hhigh : ∀ x ∈ a :: l, bp < x) (hbase : base < bp)
    (fuel : Nat) : h.findPlace bp (fuel + l.length + 1) a = h.findPlace bp fuel base := by
  induction l generalizing a with
  | nil =>
    have ha : bp < a := hhigh a List.mem_cons_self
    have hnext : h.ptr a = base := hchain
    have hgo : ¬ h.Stops bp a := by
      unfold Heap.Stops
      omega
    rw [List.length_nil, Heap.findPlace, if_neg hgo, hnext]
  | cons x l ih =>
    obtain ⟨hax, hsorted'⟩ := List.pairwise_cons.1 hsorted
    have hlt : a < x := hax x List.mem_cons_self
    have ha : bp < a := hhigh a List.mem_cons_self
    have hgo : ¬ h.Stops bp a := by
      unfold Heap.Stops
      rw [hchain.1]
      omega
    rw [List.length_cons, Heap.findPlace, if_neg hgo, hchain.1]
    exact ih hchain.2 hsorted' fun y hy => hhigh y (List.mem_cons_of_mem a hy)

/-- The block before the ones behind `l1`. -/
def Heap.prevOf (h : Heap) (l1 : List Span) : Nat := endOf h.base (l1.map Span.start)

@[simp] theorem prevOf_nil : h.prevOf [] = h.base := rfl

@[simp] theorem prevOf_concat (a : Span) : h.prevOf (l1 ++ [a]) = a.start := by
  simp [Heap.prevOf]

/-- The heap after `free` of the block `b` behind `l1`. -/
def Heap.freed (h : Heap) (l1 : List Span) (b : Span) : Heap :=
  { (h.joinNext b.start (h.prevOf l1)).joinPrev b.start (h.prevOf l1) with freep := h.prevOf l1 }

/-- What a call leaves alone. -/
structure Same (h h' : Heap) : Prop where
  base : h'.base = h.base
  brk : h'.brk = h.brk
  given : h'.given = h.given

/-- The heaps differ in the header at `x` only. -/
structure Only (x : Nat) (h h' : Heap) : Prop extends Same h h' where
  ptr : ∀ y ≠ x, h'.ptr y = h.ptr y
  size : ∀ y ≠ x, h'.size y = h.size y

/-- A block that belongs between `l1` and `l2`. -/
structure Between (h : Heap) (l1 : List Span) (b : Span) (l2 : List Span) : Prop where
  listed : Listed h (l1 ++ l2)
  low : h.base < b.start
  below : ∀ a ∈ l1, a.stop ≤ b.start
  above : ∀ c ∈ l2, b.stop ≤ c.start
  pos : 0 < b.len
  len : b.len = 8 * h.size b.start

namespace Between

variable (hb : Between h l1 b l2)

include hb

theorem lt_below {x : Nat} (hx : x ∈ h.base :: l1.map Span.start) : x < b.start := by
  rcases List.mem_cons.1 hx with rfl | hx
  · exact hb.low
  · obtain ⟨a, ha, rfl⟩ := List.mem_map.1 hx
    have hstop := hb.below a ha
    have hpos := hb.listed.pos a (List.mem_append_left _ ha)
    unfold Span.stop at hstop
    omega

theorem lt_above {x : Nat} (hx : x ∈ l2.map Span.start) : b.start < x := by
  obtain ⟨c, hc, rfl⟩ := List.mem_map.1 hx
  have hstop := hb.above c hc
  have hpos := hb.pos
  unfold Span.stop at hstop
  omega

theorem prev_lt : h.prevOf l1 < b.start := hb.lt_below endOf_mem

theorem sorted :
    (h.base :: l1.map Span.start).Pairwise (· < ·) ∧ (l2.map Span.start).Pairwise (· < ·) := by
  have hsorted := hb.listed.sorted
  rw [List.map_append, ← List.cons_append] at hsorted
  exact ⟨(List.pairwise_append.1 hsorted).1, (List.pairwise_append.1 hsorted).2.1⟩

theorem chains : Chain h.ptr h.base (l1.map Span.start) (h.ptr (h.prevOf l1)) ∧
    Chain h.ptr (h.prevOf l1) (l2.map Span.start) h.base := by
  have hchain := hb.listed.chain
  rw [List.map_append] at hchain
  exact hchain.split

theorem stops : h.Stops b.start (h.prevOf l1) := by
  have hlt := hb.prev_lt
  have hnext := hb.chains.2
  unfold Heap.Stops
  cases l2 with
  | nil =>
    have hle : h.base ≤ h.prevOf l1 := by
      rcases List.mem_cons.1 (endOf_mem (a := h.base) (l := l1.map Span.start)) with heq | hmem
      · exact heq.ge
      · exact ((List.pairwise_cons.1 hb.sorted.1).1 _ hmem).le
    have hnext : h.ptr (h.prevOf l1) = h.base := hnext
    exact .inr ⟨hnext ▸ hle, .inl hlt⟩
  | cons c l =>
    rw [hnext.1]
    exact .inl ⟨hlt, hb.lt_above (by simp)⟩

/-- **The loop of `free` finds the place**, from wherever it starts. -/
theorem findPlace_spec :
    ∃ K, ∀ fuel, K ≤ fuel → h.findPlace b.start fuel h.freep = some (h.prevOf l1) := by
  obtain ⟨hsorted1, hsorted2⟩ := hb.sorted
  -- from a block before the place, or from `base`
  have hup : ∀ {x}, x ∈ h.base :: l1.map Span.start → ∀ fuel, l1.length + 1 ≤ fuel →
      h.findPlace b.start fuel x = some (h.prevOf l1) := by
    intro x hx fuel hfuel
    obtain ⟨m1, m2, hm, hchain', hend⟩ := hb.chains.1.exists_suffix hx
    rw [hm] at hsorted1
    have hsorted : (x :: m2).Pairwise (· < ·) := (List.pairwise_append.1 hsorted1).2.1
    have hlen : m2.length ≤ l1.length := by
      have := congrArg List.length hm
      simp at this
      omega
    obtain ⟨k, rfl⟩ : ∃ k, fuel = k + m2.length + 1 := ⟨fuel - m2.length - 1, by omega⟩
    have hend : endOf x m2 = h.prevOf l1 := hend
    rw [findPlace_up hchain' hsorted ?_ (hend ▸ hb.stops) k, hend]
    exact fun y hy => hb.lt_below (hm ▸ List.mem_append_right _ hy)
  refine ⟨l1.length + l2.length + 2, fun fuel hfuel => ?_⟩
  have hfreep := hb.listed.freep
  rw [List.map_append, ← List.cons_append] at hfreep
  rcases List.mem_append.1 hfreep with hlow | hhigh
  · exact hup hlow fuel (by omega)
  · -- the loop goes over the end of the list first
    obtain ⟨m1, m2, hm⟩ := List.append_of_mem hhigh
    have hchain := hb.listed.chain
    rw [List.map_append, hm, ← List.append_assoc] at hchain
    have hlen : m2.length + 1 ≤ l2.length := by
      have := congrArg List.length hm
      simp at this
      omega
    rw [hm] at hsorted2
    obtain ⟨k, rfl⟩ : ∃ k, fuel = k + m2.length + 1 := ⟨fuel - m2.length - 1, by omega⟩
    rw [findPlace_over (Chain.append_iff.1 hchain).2 (List.pairwise_append.1 hsorted2).2.1 ?_
      hb.low k]
    · exact hup List.mem_cons_self k (by omega)
    · intro y hy
      exact hb.lt_above (hm ▸ List.mem_append_right _ hy)

omit hb in
theorem only_joinNext (bp p : Nat) : Only bp h (h.joinNext bp p) := by
  unfold Heap.joinNext
  split
  · exact ⟨⟨rfl, rfl, rfl⟩, fun y hy => update_of_ne hy _ _, fun y hy => update_of_ne hy _ _⟩
  · exact ⟨⟨rfl, rfl, rfl⟩, fun y hy => update_of_ne hy _ _, fun _ _ => rfl⟩

omit hb in
theorem only_joinPrev (bp p : Nat) : Only p h (h.joinPrev bp p) := by
  unfold Heap.joinPrev
  split
  · exact ⟨⟨rfl, rfl, rfl⟩, fun y hy => update_of_ne hy _ _, fun y hy => update_of_ne hy _ _⟩
  · exact ⟨⟨rfl, rfl, rfl⟩, fun y hy => update_of_ne hy _ _, fun _ _ => rfl⟩

theorem joinNext_spec :
    ∃ c l, joinUp b l2 = c :: l ∧ c.start = b.start ∧ (∀ d ∈ l, d ∈ l2) ∧
      Chain (h.joinNext b.start (h.prevOf l1)).ptr b.start (l.map Span.start) h.base ∧
      c.len = 8 * (h.joinNext b.start (h.prevOf l1)).size b.start := by
  have hchain := hb.chains.2
  have hnotMem : b.start ∉ l2.map Span.start := fun hmem => (hb.lt_above hmem).false
  have hlen := hb.len
  have hstop : b.stop = b.start + 8 * h.size b.start := by rw [Span.stop, hlen]
  rw [Heap.joinNext, ← hstop]
  by_cases htouch : b.stop = h.ptr (h.prevOf l1)
  · cases l2 with
    | nil =>
      have hnext : h.ptr (h.prevOf l1) = h.base := hchain
      have := hb.low
      omega
    | cons c l =>
      rw [if_pos htouch, hchain.1, joinUp_cons, if_pos (hchain.1 ▸ htouch)]
      refine ⟨_, _, rfl, rfl, fun d hd => List.mem_cons_of_mem c hd, ?_, ?_⟩
      · exact hchain.2.replace_head fun hmem => hnotMem (List.mem_cons_of_mem _ hmem)
      · have hc := hb.listed.len c (by simp)
        show b.len + c.len = 8 * update h.size b.start _ b.start
        rw [update_self]
        omega
  · have hgap : joinUp b l2 = b :: l2 := by
      cases l2 with
      | nil => rfl
      | cons c l => exact if_neg (hchain.1 ▸ htouch)
    rw [if_neg htouch, hgap]
    exact ⟨_, _, rfl, rfl, fun _ hd => hd, hchain.replace_head hnotMem, hlen⟩

/-- The pointers and the sizes of a list. -/
def Spells (h : Heap) (base : Nat) (L : List Span) : Prop :=
  Chain h.ptr base (L.map Span.start) base ∧ ∀ d ∈ L, d.len = 8 * h.size d.start

theorem spells_freed : Spells (h.freed l1 b) h.base (insert l1 b l2) := by
  obtain ⟨c, l, hup, hstart, hl, hbehind, hclen⟩ := hb.joinNext_spec
  have hrest := only_joinNext (h := h) b.start (h.prevOf l1)
  rw [Spans.insert, hup, Heap.freed]
  generalize h.joinNext b.start (h.prevOf l1) = k at hbehind hclen hrest ⊢
  have hfront := hb.chains.1.congr fun x hx => hrest.ptr x (hb.lt_below hx).ne
  have hnodup : (h.base :: l1.map Span.start).Nodup := hb.sorted.1.imp fun hlt => Nat.ne_of_lt hlt
  have hlater : ∀ d ∈ l, b.start < d.start :=
    fun d hd => hb.lt_above (List.mem_map_of_mem (hl d hd))
  have hprev : h.prevOf l1 ∉ b.start :: l.map Span.start := fun hmem => by
    have hlt := hb.prev_lt
    rcases List.mem_cons.1 hmem with heq | hmem
    · exact hlt.ne heq
    · obtain ⟨d, hd, heq⟩ := List.mem_map.1 hmem
      exact (hlt.trans (hlater d hd)).ne' heq
  have hbefore : ∀ d ∈ l1, d.len = 8 * k.size d.start := fun d hd => by
    rw [hrest.size _ (hb.lt_below (List.mem_cons_of_mem _ (List.mem_map_of_mem hd))).ne]
    exact hb.listed.len d (List.mem_append_left _ hd)
  have hafter : ∀ d ∈ l, d.len = 8 * k.size d.start := fun d hd => by
    rw [hrest.size _ (hlater d hd).ne']
    exact hb.listed.len d (List.mem_append_right _ (hl d hd))
  by_cases htouch : h.prevOf l1 + 8 * k.size (h.prevOf l1) = b.start
  · rw [Heap.joinPrev, if_pos htouch]
    rcases List.eq_nil_or_concat l1 with rfl | ⟨m, a, rfl⟩
    · -- `base` does not touch the block
      rw [prevOf_nil, hrest.size _ hb.low.ne, hb.listed.base] at htouch
      exact absurd htouch hb.low.ne
    rw [List.concat_eq_append] at *
    rw [prevOf_concat] at htouch hprev ⊢
    have ha := hbefore a (by simp)
    rw [List.map_append, List.map_singleton] at hfront hnodup
    have hm : a.start ∉ h.base :: m.map Span.start := fun hmem =>
      (List.nodup_append.1 hnodup).2.2 _ hmem _ (List.mem_singleton.2 rfl) rfl
    have hjoin : joinDown (m ++ [a]) c = m ++ [a.join c] := by
      rw [joinDown_concat, if_pos (by rw [hstart, ← htouch, ← ha, Span.stop])]
    dsimp only
    rw [hjoin]
    constructor
    · rw [List.append_assoc, List.map_append]
      refine Chain.append_iff.2 ⟨(Chain.append_iff.1 hfront).1.update_of_notMem hm, ?_⟩
      exact hbehind.replace_head fun hmem => hprev (List.mem_cons_of_mem _ hmem)
    · intro d hd
      rw [List.append_assoc] at hd
      show d.len = 8 * update k.size a.start _ d.start
      rcases List.mem_append.1 hd with hd | hd
      · have hmem := List.mem_map_of_mem (f := Span.start) hd
        rw [update_of_ne (ne_of_mem_of_not_mem (List.mem_cons_of_mem _ hmem) hm)]
        exact hbefore d (List.mem_append_left _ hd)
      rcases List.mem_cons.1 hd with rfl | hd
      · show a.len + c.len = 8 * update k.size a.start _ a.start
        rw [update_self]
        omega
      · have hmem := List.mem_map_of_mem (f := Span.start) hd
        rw [update_of_ne (ne_of_mem_of_not_mem (List.mem_cons_of_mem _ hmem) hprev)]
        exact hafter d hd
  · have hgap : joinDown l1 c = l1 ++ [c] := by
      rcases List.eq_nil_or_concat l1 with rfl | ⟨m, a, rfl⟩
      · rfl
      rw [List.concat_eq_append] at *
      rw [prevOf_concat, ← hbefore a (by simp)] at htouch
      exact (joinDown_concat a).trans (if_neg (hstart ▸ htouch))
    rw [Heap.joinPrev, if_neg htouch]
    dsimp only
    rw [hgap, List.append_assoc]
    constructor
    · rw [List.map_append]
      refine Chain.append_iff.2 ⟨hstart ▸ hfront.redirect hnodup, ?_⟩
      rw [hstart]
      exact hbehind.update_of_notMem hprev
    · intro d hd
      rcases List.mem_append.1 hd with hd | hd
      · exact hbefore d hd
      rcases List.mem_cons.1 hd with rfl | hd
      · exact hstart ▸ hclen
      · exact hafter d hd

theorem size_base_freed : (h.freed l1 b).size h.base = 0 := by
  have hbase : (h.joinNext b.start (h.prevOf l1)).size h.base = 0 :=
    ((only_joinNext _ _).size _ hb.low.ne).trans hb.listed.base
  by_cases heq : h.base = h.prevOf l1
  · -- `base` is not joined with the new block, as it does not touch it
    rw [← heq] at hbase
    rw [Heap.freed, ← heq, Heap.joinPrev, if_neg (by rw [hbase]; exact hb.low.ne)]
    exact hbase
  · exact ((only_joinPrev _ _).size _ heq).trans hbase

theorem listed_freed : Listed (h.freed l1 b) (insert l1 b l2) := by
  have hbase : (h.freed l1 b).base = h.base := (only_joinPrev _ _).base.trans
    (only_joinNext _ _).base
  have hold : ∀ d ∈ l1 ++ b :: l2, 0 < d.len ∧ h.base < d.start := fun d hd => by
    rw [List.mem_append, List.mem_cons, or_left_comm, ← List.mem_append] at hd
    rcases hd with rfl | hd
    · exact ⟨hb.pos, hb.low⟩
    · exact ⟨hb.listed.pos d hd, hb.listed.low d hd⟩
  have hmem := mem_insert fun d hd => (hold d hd).1
  refine ⟨hbase ▸ hb.spells_freed.1, hb.spells_freed.2, fun d hd => (hmem d hd).1,
    hb.listed.spaced.insert hb.below hb.above, fun d hd => ?_, hbase ▸ hb.size_base_freed, ?_⟩
  · obtain ⟨-, a, ha, heq⟩ := hmem d hd
    rw [hbase, heq]
    exact (hold a ha).2
  · rw [hbase]
    show h.prevOf l1 ∈ _
    rcases List.eq_nil_or_concat l1 with rfl | ⟨m, a, rfl⟩
    · exact List.mem_cons_self
    · -- the block before the place is still there, joined or not
      obtain ⟨c, l, hup, -⟩ := exists_joinUp b l2
      rw [List.concat_eq_append, prevOf_concat, Spans.insert, hup]
      dsimp only
      rw [joinDown_concat]
      split
      · simp [Span.join]
      · simp

end Between

/-- **`free` gives a block back** to the list, whatever the order of the blocks. -/
theorem free_spec (hL : Listed h L) (hpos : 0 < b.len) (hlen : b.len = 8 * h.size b.start)
    (hlow : h.base < b.start) (hdisj : Disjoint b.cells (cells L)) :
    ∃ h' L', (∃ K, ∀ fuel, K ≤ fuel → h.free fuel (b.start + 8) = some h') ∧ Listed h' L' ∧
      cells L' = cells L ∪ b.cells ∧ total L' = total L + b.len ∧ (∃ d ∈ L', b.len ≤ d.len) ∧
      Same h h' ∧ ∀ x, x ∉ cells L → x ∉ b.cells → h'.size x = h.size x := by
  obtain ⟨l1, l2, rfl, hbelow, habove⟩ := hL.spaced.exists_split hL.pos hpos hdisj
  have hb : Between h l1 b l2 := ⟨hL, hlow, hbelow, habove, hpos, hlen⟩
  obtain ⟨K, hK⟩ := hb.findPlace_spec
  refine ⟨h.freed l1 b, insert l1 b l2, ⟨K, fun fuel hfuel => ?_⟩, hb.listed_freed, cells_insert,
    total_insert, exists_le_insert, ?_, ?_⟩
  · rw [Heap.free, Nat.add_sub_cancel, hK fuel hfuel]
    rfl
  · have h1 := Between.only_joinNext (h := h) b.start (h.prevOf l1)
    have h2 := Between.only_joinPrev (h := h.joinNext b.start (h.prevOf l1)) b.start (h.prevOf l1)
    exact ⟨h2.base.trans h1.base, h2.brk.trans h1.brk, h2.given.trans h1.given⟩
  · intro x hxL hxb
    have hne : x ≠ b.start := by
      rintro rfl
      exact hxb ⟨le_rfl, Nat.lt_add_of_pos_right hpos⟩
    by_cases hprev : x = h.prevOf l1
    · -- the block before the place is a block of the list, or `base`
      rcases List.mem_cons.1 (endOf_mem (a := h.base) (l := l1.map Span.start)) with heq | hmem
      · have hbase : x = h.base := hprev.trans heq
        rw [hbase, hb.size_base_freed]
        exact hL.base.symm
      · obtain ⟨a, ha, heq⟩ := List.mem_map.1 hmem
        refine absurd ⟨a, List.mem_append_left _ ha, ?_⟩ hxL
        rw [hprev.trans heq.symm]
        exact ⟨le_rfl, Nat.lt_add_of_pos_right (hL.pos a (List.mem_append_left _ ha))⟩
    · exact ((Between.only_joinPrev _ _).size x hprev).trans
        ((Between.only_joinNext _ _).size x hne)

theorem findPlace_mono {bp fuel fuel' p q : Nat} (hle : fuel ≤ fuel')
    (hfind : h.findPlace bp fuel p = some q) :
    h.findPlace bp fuel' p = some q := by
  induction fuel generalizing fuel' p with
  | zero => cases hfind
  | succ fuel ih =>
    obtain ⟨k, rfl⟩ : ∃ k, fuel' = k + 1 := ⟨fuel' - 1, by omega⟩
    rw [Heap.findPlace] at hfind ⊢
    by_cases hstops : h.Stops bp p
    · rwa [if_pos hstops] at hfind ⊢
    · rw [if_neg hstops] at hfind ⊢
      exact ih (by omega) hfind

theorem free_mono {fuel fuel' ap : Nat} {h' : Heap} (hle : fuel ≤ fuel')
    (hfree : h.free fuel ap = some h') :
    h.free fuel' ap = some h' := by
  obtain ⟨p, hfind, rfl⟩ := Option.map_eq_some_iff.1 hfree
  rw [Heap.free, findPlace_mono hle hfind]
  rfl

end Xv6.Malloc
