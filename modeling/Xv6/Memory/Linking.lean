import Xv6.Memory.Build

/-! # Linking an address space

`linkuvm` gives a new thread a page directory that shares the caller's pages: the pages below the
stack are linked, the page before the stack is a new one without access, and the page that the
caller named becomes the stack. `Linking` says how far the loop has come.

* **`linkuvm_spec`** — what is mapped in the directory that `linkuvm` returns. The stack page is
  mapped exactly if the loop gets to the caller's stack: `StackReached`.

The comparison `i < orig_stack_beg - PGSIZE` is one of unsigned numbers: with the caller's stack in
the first page, every page counts as below the stack. -/

namespace Xv6.Memory

open Foundation

variable (L : Layout)

/-! ## Moving the contents of the stack -/

/-- The end of the last word that `linkuvm` moves, as an offset in the page. -/
def moveEnd (stack : Nat) : Nat := stack % PGSIZE + 4 * ((PGSIZE - stack % PGSIZE + 3) / 4)

/-- What `linkuvm` writes while it moves the stack is ordinary memory. -/
def Mem.Movable (m : Mem) (pgdir stack i : Nat) : Prop :=
  ∀ j, j < moveEnd stack → m.Storable pgdir (uint32 (pgRoundDown stack + j)) ∧
    m.Storable pgdir (uint32 (i + j))

section

variable {safe strict : Prop} {m : Mem} {pgdir sz stack i : Nat}

theorem DataOnly.movable {m' : Mem} (h : DataOnly m m') (hs : m.Movable pgdir stack i) :
    m'.Movable pgdir stack i :=
  fun j hj => ⟨h.storable (hs j hj).1, h.storable (hs j hj).2⟩

theorem storeWord_at {a j x : Nat}
    (hs : safe → ∀ k < 4, m.Storable pgdir (uint32 (a + (j + k : Nat)))) :
    Ends (storeWord pgdir (uint32 (a + j)) x) m (fun _ m' => DataOnly m m') (Calm safe strict) := by
  refine storeWord_spec (fun h k hk => ?_) (uint32_uint32 _)
  have := hs h k hk
  rwa [uint32_add_uint32, show (a : Int) + j + k = a + (j + k : Nat) by omega]

theorem moveWord_spec {j : Nat} (hj : j + 4 ≤ moveEnd stack)
    (hs : safe → m.Movable pgdir stack i) :
    Ends (moveWord pgdir sz (pgRoundDown stack) i j) m (fun _ m' => DataOnly m m')
      (Calm safe strict) := by
  simp only [moveWord, ends_bind]
  refine loadWord_spec.imp ?_
  rintro tmp m rfl
  split
  · simp only [ends_bind]
    refine (storeWord_at fun h k hk => (hs h _ (by omega)).1).imp (fun _ m1 h1 => ?_)
    refine (storeWord_at fun h k hk => ?_).imp (fun _ m2 h2 => h1.trans h2)
    exact (h1.movable (hs h) _ (by omega)).2
  · exact storeWord_at fun h k hk => (hs h _ (by omega)).2

theorem moveStack_spec (hs : safe → m.Movable pgdir stack i) :
    Ends (moveStack pgdir sz stack i) m (fun _ m' => DataOnly m m') (Calm safe strict) := by
  refine ends_forM (fun _ s => DataOnly m s) (.refl m) (fun k _ hk s h => ?_) fun _ h => h
  have hk : stack % PGSIZE + 4 * k + 4 ≤ moveEnd stack := by
    unfold moveEnd
    omega
  exact (moveWord_spec hk fun hs' => h.movable (hs hs')).imp (fun _ s' h' => h.trans h')

end

/-! ## How far the loop has come -/

/-- The page `n` is one of those that `linkuvm` links. -/
def Links (origStackBeg n : Nat) : Prop := n * PGSIZE < uint32 ((origStackBeg : Int) - PGSIZE)

instance (origStackBeg n : Nat) : Decidable (Links origStackBeg n) := by
  unfold Links
  infer_instance

/-- The loop of `linkuvm` gets to the caller's stack. -/
def StackReached (sz origStackBeg : Nat) : Prop := PGSIZE ≤ origStackBeg ∧ origStackBeg < sz

instance (sz origStackBeg : Nat) : Decidable (StackReached sz origStackBeg) := by
  unfold StackReached
  infer_instance

/-- **The loop of `linkuvm` has come to the page `k`**: the entries below it are links or the page
without access, its own entry is `top`, and the rest of the directory is new. Besides what is in the
directory, the page `held` was taken from the free list. -/
structure Linking (pgdir origStackBeg k : Nat) (top : Pte) (held : Option Frame) (d : Frame)
    (m0 m : Mem) : Prop where
  building : Building d m0 m
  bound : k ≤ UPAGES
  kernel : ∀ n, UPAGES ≤ n → m.pte d n = kernelPte L n
  rest : ∀ n, k ≤ n → n < UPAGES → m.pte d n = if n = k then top else .zero
  linked : ∀ n < k, Links origStackBeg n → (m0.pte pgdir n).p ∧ m.pte d n = m0.pte pgdir n
  guard : ∀ n < k, ¬ Links origStackBeg n → n * PGSIZE < origStackBeg ∧
    ∃ g, m.pte d n = ⟨g, true, true, false⟩ ∧ (m0.page g).isFree ∧ (m.page g).isData
  taken : ∀ g, (m0.page g).isFree → (m.page g).isFree = false →
    m.PartOf d g ∨ held = some g ∨ ∃ n < k, ¬ Links origStackBeg n ∧ (m.pte d n).ppn = g
  tables : ∀ i, i ∈ kernelTables → (m.pde d i).p
  low : ∀ i, (m.pde d i).p → i < NPDENTRIES

namespace Linking

variable {L} {pgdir orig k : Nat} {top : Pte} {held : Option Frame} {d : Frame} {m0 m m' : Mem}

theorem start (h : Fresh L d m0 m) : Linking L pgdir orig 0 .zero none d m0 m where
  building := h.toBuilding
  bound := Nat.zero_le _
  kernel n _ := h.pte n
  rest n _ hn := by
    rw [h.pte, kernelPte_user L hn]
    split <;> rfl
  linked n hn := absurd hn (Nat.not_lt_zero n)
  guard n hn := absurd hn (Nat.not_lt_zero n)
  taken g hg hg' := .inl (h.taken g hg hg')
  tables i hi := (h.pde i).2 hi
  low i hi := by
    have hlow : ∀ i ∈ kernelTables, i < NPDENTRIES := by decide
    exact hlow i ((h.pde i).1 hi)

theorem data (h : Linking L pgdir orig k top held d m0 m) (hd : DataOnly m m') :
    Linking L pgdir orig k top held d m0 m' where
  building := h.building.data hd
  bound := h.bound
  kernel n hn := by rw [hd.pte, h.kernel n hn]
  rest n hn hn' := by rw [hd.pte, h.rest n hn hn']
  linked n hn hl := by
    rw [hd.pte]
    exact h.linked n hn hl
  guard n hn hl := by
    obtain ⟨hlt, g, hg, hf, hdata⟩ := h.guard n hn hl
    exact ⟨hlt, g, by rw [hd.pte, hg], hf, by rw [(hd.page g).isData, hdata]⟩
  taken g hg hg' := by
    rw [(hd.page g).isFree] at hg'
    simpa only [hd.partOf, hd.pte] using h.taken g hg hg'
  tables i hi := by
    rw [hd.pde]
    exact h.tables i hi
  low i hi := by
    rw [hd.pde] at hi
    exact h.low i hi

theorem asked (h : Linking L pgdir orig k top held d m0 m) :
    Linking L pgdir orig k top held d m0 m.asked :=
  h.data (.asked m)

theorem lt_of_not_present (h : Linking L pgdir orig k .zero held d m0 m)
    (hp : (m.pte d k).p = false) :
    k < UPAGES := by
  refine lt_of_le_of_ne h.bound ?_
  rintro rfl
  -- the first page of the kernel half is there from the start
  rw [h.kernel _ le_rfl, kernelPte_first] at hp
  cases hp

theorem map (h : Linking L pgdir orig k .zero held d m0 m) (hb : Builds d m m')
    (hp : (m.pte d k).p = false) {e : Pte}
    (hpde : ∀ i ≠ k / 1024, m'.pde d i = m.pde d i)
    (hpte : ∀ n, m'.pte d n = if n = k then e else m.pte d n) :
    Linking L pgdir orig k e held d m0 m' := by
  have hk := h.lt_of_not_present hp
  refine ⟨h.building.builds hb, h.bound, fun n hn => ?_, fun n hn hn' => ?_, fun n hn hl => ?_,
    fun n hn hl => ?_, fun g hg hg' => ?_, fun i hi => ?_, fun i hi => ?_⟩
  · rw [hpte, if_neg (by omega), h.kernel n hn]
  · rw [hpte, h.rest n hn hn']
    split <;> rfl
  · rw [hpte, if_neg (by omega)]
    exact h.linked n hn hl
  · obtain ⟨hlt, g, hg, hf, hd⟩ := h.guard n hn hl
    refine ⟨hlt, g, by rw [hpte, if_neg (by omega), hg], hf, ?_⟩
    have hnf := Page.isFree_of_isData hd
    rw [(hb.keeps g hnf fun hpart => by simp [(h.building.tree.part hpart).2] at hd).isData, hd]
  · rcases hgm : (m.page g).isFree with _ | _
    · rcases h.taken g hg hgm with hpart | hheld | ⟨n, hn, hl, hg⟩
      · exact .inl (hb.grows g hpart)
      · exact .inr (.inl hheld)
      · exact .inr (.inr ⟨n, hn, hl, by rw [hpte, if_neg (by omega), hg]⟩)
    · exact .inl (hb.taken g hgm hg')
  · -- the entry of a new page table is one of the user half
    have hU : UPAGES = 512 * 1024 := rfl
    have hlow : ∀ i ∈ kernelTables, 512 ≤ i := by decide
    have := hlow i hi
    rw [hpde i (by omega)]
    exact h.tables i hi
  · by_cases hik : i = k / 1024
    · have hU : UPAGES = 512 * 1024 := rfl
      have hN : NPDENTRIES = 1024 := rfl
      omega
    · rw [hpde i hik] at hi
      exact h.low i hi

theorem next_linked (h : Linking L pgdir orig k (m0.pte pgdir k) held d m0 m) (hk : k < UPAGES)
    (hl : Links orig k) (hp : (m0.pte pgdir k).p) :
    Linking L pgdir orig (k + 1) .zero held d m0 m := by
  have htop := h.rest k le_rfl hk
  rw [if_pos rfl] at htop
  refine ⟨h.building, hk, h.kernel, fun n hn hn' => ?_, fun n hn hl' => ?_, fun n hn hl' => ?_,
    fun g hg hg' => ?_, h.tables, h.low⟩
  · rw [h.rest n (by omega) hn', if_neg (by omega)]
    split <;> rfl
  · rcases Nat.lt_succ_iff_lt_or_eq.1 hn with hn | rfl
    · exact h.linked n hn hl'
    · exact ⟨hp, htop⟩
  · rcases Nat.lt_succ_iff_lt_or_eq.1 hn with hn | rfl
    · exact h.guard n hn hl'
    · exact absurd hl hl'
  · rcases h.taken g hg hg' with hpart | hheld | ⟨n, hn, hl', hg⟩
    · exact .inl hpart
    · exact .inr (.inl hheld)
    · exact .inr (.inr ⟨n, by omega, hl', hg⟩)

theorem next_guard {f : Frame} (h : Linking L pgdir orig k ⟨f, true, true, false⟩ (some f) d m0 m)
    (hk : k < UPAGES) (hl : ¬ Links orig k) (hlt : k * PGSIZE < orig) (hf : (m0.page f).isFree)
    (hd : (m.page f).isData) : Linking L pgdir orig (k + 1) .zero none d m0 m := by
  have htop := h.rest k le_rfl hk
  rw [if_pos rfl] at htop
  refine ⟨h.building, hk, h.kernel, fun n hn hn' => ?_, fun n hn hl' => ?_, fun n hn hl' => ?_,
    fun g hg hg' => ?_, h.tables, h.low⟩
  · rw [h.rest n (by omega) hn', if_neg (by omega)]
    split <;> rfl
  · rcases Nat.lt_succ_iff_lt_or_eq.1 hn with hn | rfl
    · exact h.linked n hn hl'
    · exact absurd hl' hl
  · rcases Nat.lt_succ_iff_lt_or_eq.1 hn with hn | rfl
    · exact h.guard n hn hl'
    · exact ⟨hlt, f, htop, hf, hd⟩
  · rcases h.taken g hg hg' with hpart | hheld | ⟨n, hn, hl', hg⟩
    · exact .inl hpart
    · exact .inr (.inr ⟨k, by omega, hl, by rw [htop]; exact Option.some.inj hheld⟩)
    · exact .inr (.inr ⟨n, by omega, hl', hg⟩)

theorem change (h : Linking L pgdir orig k top held d m0 m) {f : Frame} {held' : Option Frame}
    (hf : (m0.page f).isFree) (hguard : ∀ n < k, ¬ Links orig n → (m.pte d n).ppn ≠ f)
    (hs : Swaps d f m m') (hx : (m'.page f).isDir = false)
    (hheld : ∀ g, (m'.page g).isFree = false → held = some g ∨ g = f → held' = some g) :
    Linking L pgdir orig k top held' d m0 m' := by
  refine ⟨h.building.change hf hs hx, h.bound, fun n hn => ?_, fun n hn hn' => ?_,
    fun n hn hl => ?_, fun n hn hl => ?_, fun g hg hg' => ?_, fun i hi => ?_, fun i hi => ?_⟩
  · rw [hs.pte, h.kernel n hn]
  · rw [hs.pte, h.rest n hn hn']
  · rw [hs.pte]
    exact h.linked n hn hl
  · obtain ⟨hlt, g, hg, hfree, hd⟩ := h.guard n hn hl
    have hgf : g ≠ f := by
      have := hguard n hn hl
      rwa [hg] at this
    exact ⟨hlt, g, by rw [hs.pte, hg], hfree, by rw [hs.page g hgf, hd]⟩
  · simp only [hs.part, hs.pte]
    by_cases hgf : g = f
    · exact .inr (.inl (hheld g hg' (.inr hgf)))
    · rcases h.taken g hg (hs.page g hgf ▸ hg') with hp | hh | hn
      · exact .inl hp
      · exact .inr (.inl (hheld g hg' (.inl hh)))
      · exact .inr (.inr hn)
  · rw [hs.pde]
    exact h.tables i hi
  · rw [hs.pde] at hi
    exact h.low i hi

theorem grant (h : Linking L pgdir orig k top none d m0 m) {f : Frame} (hf : (m.page f).isFree) :
    Linking L pgdir orig k top (some f) d m0 (m.asked.grant f) := by
  refine h.change (h.building.shrinks f hf) (fun n hn hl heq => ?_) (h.building.tree.grant hf)
    (by simp [Page.isDir]) fun g _ hg => ?_
  · obtain ⟨-, g, hg, -, hd⟩ := h.guard n hn hl
    rw [hg] at heq
    obtain rfl : g = f := heq
    simp [Page.isData_of_isFree hf] at hd
  · rcases hg with hg | rfl
    · exact absurd hg (Option.some_ne_none g).symm
    · rfl

end Linking

/-! ## The loop -/

section

variable {safe strict : Prop} {pgdir sz orig stack k : Nat} {d : Frame} {m0 m : Mem}

theorem Building.movable {i : Nat} (h : Building d m0 m) (ht : m0.Tree pgdir)
    (hs : m0.Movable pgdir stack i) : m.Movable pgdir stack i := by
  have hstore : ∀ {va}, m0.Storable pgdir va → m.Storable pgdir va := by
    intro va hva f w hf
    have hf0 : m0.frameAt pgdir va = some (f, w) := by
      rwa [Mem.frameAt, h.old_pte ht, ← Mem.frameAt] at hf
    have hdata := hva f w hf0
    rwa [(h.keeps f (Page.isFree_of_isData hdata) not_false).isData]
  exact fun j hj => ⟨hstore (hs j hj).1, hstore (hs j hj).2⟩

/-- What an iteration of `linkuvm` leaves, by its result. -/
def LinkStep (pgdir orig stack k : Nat) (d : Frame) (m0 : Mem) (r : Option Bool) (m : Mem) : Prop :=
  match r with
  | none => Linking L pgdir orig (k + 1) .zero none d m0 m
  | some false => Linking L pgdir orig k .zero none d m0 m
  | some true => Linking L pgdir orig k ⟨v2p (pgRoundDown stack), true, true, true⟩ none d m0 m ∧
      k < UPAGES ∧ ¬ Links orig k ∧ orig ≤ k * PGSIZE

/-- Up to the move of the stack, which comes last, no byte of a page in use changes. -/
def UntilMove (pgdir sz stack i : Nat) (m : Mem) (r : Option Bool) (m' : Mem) : Prop :=
  match r with
  | none => m.Exact m'
  | some false => True
  | some true => ∃ m1, m.Exact m1 ∧ Returns (moveStack pgdir sz stack i) m1 () m'

theorem linkAt_spec (h : Linking L pgdir orig k .zero none d m0 m) (hm : safe → m.FreeOk)
    (ht : m0.Tree pgdir) (hpres : safe → strict → k < UPAGES ∧ (m0.pte pgdir k).p)
    (hmove : safe → k < UPAGES → ¬ Links orig k → orig ≤ k * PGSIZE →
      m0.Movable pgdir stack (k * PGSIZE)) :
    Ends (linkAt L pgdir sz orig stack d k) m
      (fun r m' => (safe → m'.FreeOk) ∧ LinkStep L pgdir orig stack k d m0 r m' ∧
        UntilMove pgdir sz stack (k * PGSIZE) m r m') (Calm safe strict) := by
  have hdiv : k * PGSIZE / PGSIZE = k := Nat.mul_div_cancel k (by decide)
  simp only [linkAt, ends_bind]
  refine presentPte_ends (fun _ => h.building.old_tree ht) (fun hs hst => ?_) fun hp => ?_
  · rw [h.building.old_pte ht]
    exact (hpres hs hst).2
  rw [h.building.old_pte ht] at hp ⊢
  have hnew : safe → strict → (m.pte d (k * PGSIZE / PGSIZE)).p = false := fun hs hst => by
    rw [hdiv, h.rest k le_rfl (hpres hs hst).1, if_pos rfl, Pte.zero_p]
  by_cases hl : Links orig k
  · -- a page below the stack is linked
    rw [if_pos (show k * PGSIZE < uint32 ((orig : Int) - PGSIZE) from hl), ends_bind]
    refine (mappages_spec h.building.tree (calm_or hm) (calm_panic_or hnew) _ _ _).imp ?_
    rintro (_ | _) m' ⟨hfail, hok⟩
    · obtain ⟨rfl, -⟩ := hfail rfl
      exact ⟨fun hs => (hm hs).asked, h.asked, trivial⟩
    · obtain ⟨hb, hok, hnot, hpde, hpte⟩ := hok rfl
      simp only [hdiv, pdx_page] at hnot hpde hpte
      have he : (⟨(m0.pte pgdir k).ppn, true, (m0.pte pgdir k).w, (m0.pte pgdir k).u⟩ : Pte) =
          m0.pte pgdir k := by
        rw [← hp]
      rw [he] at hpte
      have hmap := h.map hb hnot hpde hpte
      exact ⟨fun hs => hok (hm hs), hmap.next_linked (h.lt_of_not_present hnot) hl hp,
        hb.exact h.building.tree⟩
  rw [if_neg (show ¬ k * PGSIZE < uint32 ((orig : Int) - PGSIZE) from hl)]
  by_cases hlt : k * PGSIZE < orig
  · -- the page before the stack is a new one
    simp only [hlt, if_true, ends_bind]
    refine kalloc_ends (calm_or hm) ⟨fun hs => (hm hs).asked, h.asked, trivial⟩
      fun f fs hfl hf => ?_
    have hg := h.grant hf
    have hok : safe → (m.asked.grant f).FreeOk := fun hs => (hm hs).grant hfl
    have hfd : ((m.asked.grant f).page f).isData := by simp [Page.isData]
    have hpart : ¬ (m.asked.grant f).PartOf d f := fun hpart =>
      Bool.false_ne_true ((hg.building.tree.part hpart).2.symm.trans hfd)
    have hf0 := h.building.shrinks f hf
    rw [ends_bind]
    refine (mappages_spec hg.building.tree (calm_or hok) (calm_panic_or fun hs hst => ?_)
      f true false).imp ?_
    · rw [hdiv, hg.rest k le_rfl (hpres hs hst).1, if_pos rfl, Pte.zero_p]
    rintro (_ | _) m' ⟨hfail, hsucc⟩
    · obtain ⟨rfl, -⟩ := hfail rfl
      simp only [Bool.false_eq_true, if_false, ends_bind]
      refine kfree_ends L
        ⟨fun hs => ((hok hs).asked).release (Page.isFree_of_isData hfd), ?_, trivial⟩
      -- the page is in no entry yet, so it can be given back
      refine hg.asked.change hf0 (fun n hn hl' heq => ?_) (hg.asked.building.tree.release hpart)
        (by simp [Page.isDir]) fun g hgf hg => ?_
      · obtain ⟨-, g, hgn, -, hgd⟩ := h.guard n hn hl'
        obtain rfl : g = f := by rwa [(DataOnly.asked _).pte, (h.building.tree.grant hf).pte,
          hgn] at heq
        simp [Page.isData_of_isFree hf] at hgd
      · have : g = f := by
          rcases hg with hg | hg
          · exact (Option.some.inj hg).symm
          · exact hg
        simp [this, Page.isFree] at hgf
    · obtain ⟨hb, hok', hnot, hpde, hpte⟩ := hsucc rfl
      simp only [hdiv, pdx_page] at hnot hpde hpte
      have hmap := hg.map hb hnot hpde hpte
      refine ⟨fun hs => hok' (hok hs), hmap.next_guard (hg.lt_of_not_present hnot) hl hlt hf0 ?_,
        .trans (exact_of_free hf fun g hg => by simp [put_of_ne hg]) (hb.exact hg.building.tree)⟩
      rw [hb.same f (Page.isFree_of_isData hfd) hpart, hfd]
  · -- the page that the caller named becomes the stack
    simp only [hlt, if_false, ends_bind]
    refine (mappages_spec h.building.tree (calm_or hm) (calm_panic_or hnew) _ true true).imp ?_
    rintro (_ | _) m' ⟨hfail, hsucc⟩
    · obtain ⟨rfl, -⟩ := hfail rfl
      exact ⟨fun hs => (hm hs).asked, h.asked, trivial⟩
    · obtain ⟨hb, hok', hnot, hpde, hpte⟩ := hsucc rfl
      simp only [hdiv, pdx_page] at hnot hpde hpte
      have hk := h.lt_of_not_present hnot
      have hmap := h.map hb hnot hpde hpte
      simp only [if_true, ends_bind]
      refine (moveStack_spec fun hs => hmap.building.movable ht
        (hmove hs hk hl (not_lt.1 hlt))).and_returns.imp ?_
      rintro _ m'' ⟨hd, hret⟩
      exact ⟨fun hs => hd.freeOk (hok' (hm hs)), ⟨hmap.data hd, hk, hl, not_lt.1 hlt⟩, m',
        hb.exact h.building.tree, hret⟩

/-- With the stack behind the first page, the pages linked are those more than a page below it. -/
theorem links_iff (hle : PGSIZE ≤ orig) (h32 : orig < 2 ^ 32) :
    Links orig k ↔ (k + 1) * PGSIZE < orig := by
  unfold Links uint32
  unfold PGSIZE at *
  omega

theorem links_of_lt (hlt : orig < PGSIZE) (hk : k ≤ UPAGES) : Links orig k := by
  unfold Links uint32
  unfold UPAGES KERNBASE PGSIZE at *
  omega

theorem Linking.found {L : Layout} {top : Pte} {held : Option Frame}
    (h : Linking L pgdir orig k top held d m0 m) (horig : orig % PGSIZE = 0) (h32 : orig < 2 ^ 32)
    (hl : ¬ Links orig k) (hle : orig ≤ k * PGSIZE) : PGSIZE ≤ orig ∧ k = orig / PGSIZE := by
  have hge : PGSIZE ≤ orig := by
    by_contra hlt
    exact hl (links_of_lt (not_le.1 hlt) h.bound)
  refine ⟨hge, ?_⟩
  by_contra hne
  -- otherwise the loop would have found it before
  have hlt : orig / PGSIZE < k := by
    unfold PGSIZE at *
    omega
  have hl' : ¬ Links orig (orig / PGSIZE) := by
    rw [links_iff hge h32]
    unfold PGSIZE at *
    omega
  have := (h.guard _ hlt hl').1
  unfold PGSIZE at *
  omega

theorem Linking.not_reached {L : Layout} {top : Pte} {held : Option Frame}
    (h : Linking L pgdir orig (pagesIn sz) top held d m0 m) (horig : orig % PGSIZE = 0)
    (h32 : orig < 2 ^ 32) : ¬ StackReached sz orig := by
  rintro ⟨hge, hlt⟩
  have hback : orig / PGSIZE * PGSIZE = orig := Nat.div_mul_cancel (Nat.dvd_of_mod_eq_zero horig)
  have hl : ¬ Links orig (orig / PGSIZE) := by
    rw [links_iff hge h32, Nat.succ_mul, hback]
    omega
  have := (h.guard _ (lt_pagesIn.2 (by rwa [hback])) hl).1
  omega

/-- What the loop of `linkuvm` leaves, by its result. -/
def LinkEnd (pgdir sz orig stack : Nat) (d : Frame) (m0 : Mem) (r : Option Bool) (m : Mem) : Prop :=
  match r with
  | none => Linking L pgdir orig (pagesIn sz) .zero none d m0 m ∧ ¬ StackReached sz orig
  | some false => ∃ k, Linking L pgdir orig k .zero none d m0 m
  | some true => Linking L pgdir orig (orig / PGSIZE)
      ⟨v2p (pgRoundDown stack), true, true, true⟩ none d m0 m ∧
      StackReached sz orig ∧ orig / PGSIZE < UPAGES

/-- What `linkuvm` leaves if it returns a directory. -/
def Linked (pgdir sz orig stack : Nat) (d : Frame) (m0 m : Mem) : Prop :=
  LinkEnd L pgdir sz orig stack d m0 none m ∨ LinkEnd L pgdir sz orig stack d m0 (some true) m

/-- What is mapped in the user half when no page was linked: the page without access at most. -/
theorem Linking.only_guard {L : Layout} {n : Nat} (h : Linking L pgdir orig k .zero none d m0 m)
    (h32 : orig < 2 ^ 32) (hnot : Links orig 0 → (m.pte d 0).p = false) (hn : n < UPAGES)
    (hp : (m.pte d n).p) :
    n = 0 ∧ (m.page (m.pte d n).ppn).isData ∧ (m0.page (m.pte d n).ppn).isFree := by
  have hnk : n < k := by
    by_contra hle
    rw [h.rest n (not_lt.1 hle) hn] at hp
    split at hp <;> cases hp
  have hl0 : ¬ Links orig 0 := by
    intro hl
    have hlink := h.linked 0 (by omega) hl
    rw [hlink.2, hlink.1] at hnot
    exact absurd (hnot hl) Bool.noConfusion
  have horig : orig = PGSIZE := by
    unfold Links uint32 at hl0
    unfold PGSIZE at *
    omega
  have hl : ¬ Links orig n := by
    rw [links_iff horig.ge h32, horig]
    unfold PGSIZE
    omega
  obtain ⟨hlt, g, hg, hf, hd⟩ := h.guard n hnk hl
  rw [hg]
  refine ⟨?_, hd, hf⟩
  rw [horig] at hlt
  unfold PGSIZE at hlt
  omega

variable (horig : orig % PGSIZE = 0) (h32 : orig < 2 ^ 32) (ht : m0.Tree pgdir)
  (hpres : safe → strict → ∀ n < pagesIn sz, n < UPAGES ∧ (m0.pte pgdir n).p)
  (hmove : safe → StackReached sz orig → orig / PGSIZE < UPAGES → m0.Movable pgdir stack orig)
include horig h32 ht hpres hmove

theorem linkAll_spec (h : Fresh L d m0 m) (hm : safe → m.FreeOk) :
    Ends (linkAll L pgdir sz orig stack d) m
      (fun r m' => (safe → m'.FreeOk) ∧ LinkEnd L pgdir sz orig stack d m0 r m' ∧
        UntilMove pgdir sz stack orig m r m') (Calm safe strict) := by
  have hback : orig / PGSIZE * PGSIZE = orig := Nat.div_mul_cancel (Nat.dvd_of_mod_eq_zero horig)
  refine ends_untilSome (fun k s => (safe → s.FreeOk) ∧ Linking L pgdir orig k .zero none d m0 s ∧
      m.Exact s) ⟨hm, .start h, .refl m⟩ (fun k _ hk s ⟨hok, hlink, hs⟩ => ?_)
    fun s ⟨hok, hlink, hs⟩ => ?_
  · have hstack : ¬ Links orig k → orig ≤ k * PGSIZE →
        k = orig / PGSIZE ∧ StackReached sz orig := by
      intro hl hle
      obtain ⟨hge, rfl⟩ := hlink.found horig h32 hl hle
      refine ⟨rfl, hge, ?_⟩
      rw [Nat.zero_add, lt_pagesIn, hback] at hk
      exact hk
    refine (linkAt_spec L hlink hok ht (fun hs hst => hpres hs hst k (by omega))
      fun hs hU hl hle => ?_).imp ?_
    · obtain ⟨rfl, hr⟩ := hstack hl hle
      rw [hback]
      exact hmove hs hr hU
    · rintro (_ | _ | _) s' ⟨hok', hstep, huntil⟩
      · exact ⟨fun _ => ⟨hok', hstep, hs.trans huntil⟩, by simp⟩
      · exact ⟨by simp, fun _ => ⟨hok', ⟨k, hstep⟩, trivial⟩⟩
      · obtain ⟨hl, hU, hnl, hle⟩ := hstep
        obtain ⟨m1, h1, hmoved⟩ := huntil
        obtain ⟨rfl, hr⟩ := hstack hnl hle
        rw [hback] at hmoved
        exact ⟨by simp, fun _ => ⟨hok', ⟨hl, hr, hU⟩, m1, hs.trans h1, hmoved⟩⟩
  · rw [Nat.zero_add] at hlink
    exact ⟨hok, ⟨hlink, hlink.not_reached horig h32⟩, hs⟩

/-- **`linkuvm`**: a directory that maps what `Linking` says, with the stack page if the loop gets
to the stack; or, if there is no memory and no page had been linked, the memory as it was. -/
theorem linkuvm_spec (hm : safe → m0.FreeOk)
    (hbad : safe → ∀ d m1 m2, Returns (setupkvm L) m0 (some d) m1 →
      Returns (linkAll L pgdir sz orig stack d) m1 (some false) m2 →
      Links orig 0 → (m2.pte d 0).p = false) :
    Ends (linkuvm L pgdir sz orig stack) m0
      (fun r m' => (r = none → safe → Restored m0 m') ∧ ∀ d, r = some d → (safe → m'.FreeOk) ∧
        Linked L pgdir sz orig stack d m0 m') (Calm safe strict) := by
  simp only [linkuvm, ends_bind]
  refine (setupkvm_spec L hm).and_returns.imp ?_
  rintro (_ | d) m1 ⟨⟨hnone, hsome⟩, hret1⟩
  · exact ⟨fun _ => hnone rfl, by simp⟩
  obtain ⟨hfresh, hok⟩ := hsome d rfl
  simp only [ends_bind]
  refine (linkAll_spec L horig h32 ht hpres hmove hfresh hok).and_returns.imp ?_
  rintro (_ | _ | _) m2 ⟨⟨hok2, hend, -⟩, hret2⟩
  · refine ⟨by simp, fun d' hd' => ?_⟩
    cases hd'
    exact ⟨hok2, .inl hend⟩
  · -- out of memory: the directory is taken down again
    obtain ⟨k, hlink⟩ := hend
    simp only [ends_bind, ends_pure]
    by_cases hs : safe
    · have honly := fun n => hlink.only_guard h32 (hbad hs d m1 m2 hret1 hret2) (n := n)
      refine (freevm_spec L (hok2 hs) hlink.building.tree ⟨fun n _ hn hp => ?_, ?_⟩).mono ?_
        fun _ _ h _ => h trivial
      · exact (honly n hn hp).2.1
      · intro n k _ hn _ hk hp hp' _
        rw [(honly n hn hp).1, (honly k hk hp').1]
      · intro _ m3 htorn
        refine ⟨fun _ _ => hlink.building.restored htorn ?_, by simp⟩
        rintro g ⟨n, -, hn, hp, rfl⟩
        exact (honly n hn hp).2.2
    · exact ends_unsafe hs fun _ _ => ⟨fun _ h => absurd h hs, by simp⟩
  · refine ⟨by simp, fun d' hd' => ?_⟩
    cases hd'
    exact ⟨hok2, .inr hend⟩

end

end Xv6.Memory
