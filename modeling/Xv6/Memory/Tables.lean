import Xv6.Memory.Spaces

/-! # Page directories as trees

What it means for the memory to hold a page directory: `Tree m d` says that the page `d` is a page
directory and that each of its present entries leads to a page table made for that entry. Since a
page table is tagged with its place, two directories share no page table and a directory has no
page table twice.

* **`Keeps S m m'`** — between `m` and `m'` the pages outside `S` that were not free have stayed
  what they were, except for the bytes of ordinary memory. Directories none of whose pages are in
  `S` keep all their entries (`Keeps.pte`, `Keeps.tree`).
* **`Mem.FreeOk`** — the free list holds exactly the pages that are tagged as free, each once.
* **`mappages_spec`**, **`walkpgdir_spec`** — what the code of `vm.c` does to a tree.

The specifications carry a proposition `safe` that says whether the free list is known to be
well-formed: if it is, the code does not stop for confusion. -/

namespace Xv6.Memory

open Foundation

/-! ## Pages and their entries -/

namespace Page

@[simp] theorem isFree_setEntry (x : Page) (i : Nat) (e : Pte) :
    (x.setEntry i e).isFree = x.isFree := by
  cases x <;> rfl

@[simp] theorem isDir_setEntry (x : Page) (i : Nat) (e : Pte) :
    (x.setEntry i e).isDir = x.isDir := by
  cases x <;> rfl

variable {x y : Page}

theorem entry_setEntry {es : Nat → Pte} (h : x.entries = some es) (i j : Nat) (e : Pte) :
    (x.setEntry i e).entry j = if j = i then e else x.entry j := by
  cases x <;> simp_all [entries, setEntry, entry, put]

theorem entries_of_isDir (h : x.isDir) : x.entries = some x.entry := by
  cases x <;> simp_all [isDir, entries]; rfl

theorem entry_of_entries {es : Nat → Pte} (h : x.entries = some es) : x.entry = es := by
  cases x <;> simp_all [entries] <;> rfl

/-- The page `y` is what `x` was, except for the bytes of ordinary memory. -/
def Like (x y : Page) : Prop := y = x ∨ (x.isData ∧ y.isData)

theorem Like.refl (x : Page) : x.Like x := .inl rfl

theorem Like.trans {z : Page} (h : x.Like y) (h' : y.Like z) : x.Like z := by
  rcases h with rfl | ⟨hx, hy⟩
  · exact h'
  · rcases h' with rfl | ⟨-, hz⟩
    · exact .inr ⟨hx, hy⟩
    · exact .inr ⟨hx, hz⟩

theorem Like.isFree (h : x.Like y) : y.isFree = x.isFree := by
  rcases h with rfl | ⟨hx, hy⟩
  · rfl
  · cases x <;> cases y <;> simp_all [isData, Page.isFree]

theorem Like.isData (h : x.Like y) : y.isData = x.isData := by
  rcases h with rfl | ⟨hx, hy⟩
  · rfl
  · rw [hx, hy]

theorem Like.eq (h : x.Like y) (hx : x.isData = false) : y = x := by
  rcases h with rfl | ⟨hx', -⟩
  · rfl
  · simp [hx] at hx'

theorem isFree_of_isData (h : x.isData) : x.isFree = false := by
  cases x <;> simp_all [isData, isFree]

theorem isFree_of_isDir (h : x.isDir) : x.isFree = false := by
  cases x <;> simp_all [isDir, isFree]

theorem isData_of_isDir (h : x.isDir) : x.isData = false := by
  cases x <;> simp_all [isDir, isData]

theorem isFree_of_isKernel (h : x.isKernel) : x.isFree = false := by
  cases x <;> simp_all [isKernel, isFree]

theorem isData_of_isFree (h : x.isFree) : x.isData = false := by
  cases x <;> simp_all [isData, isFree]

theorem isDir_of_isFree (h : x.isFree) : x.isDir = false := by
  cases x <;> simp_all [isDir, isFree]

end Page

/-! ## Addresses and their parts -/

theorem uint32_lt (x : Int) : uint32 x < 2 ^ 32 := by
  unfold uint32
  omega

theorem uint32_uint32 (x : Int) : uint32 (uint32 x) = uint32 x := by
  unfold uint32
  omega

theorem uint32_add_uint32 (x y : Int) : uint32 ((uint32 x : Int) + y) = uint32 (x + y) := by
  unfold uint32
  omega

theorem pgRoundDown_mod (a : Nat) : pgRoundDown a % PGSIZE = 0 := Nat.mul_mod_left _ _

theorem pgRoundDown_le (a : Nat) : pgRoundDown a ≤ a := Nat.div_mul_le_self _ _

@[simp] theorem pdx_page (n : Nat) : pdx (n * PGSIZE) = n / 1024 := by
  simp [pdx]

@[simp] theorem ptx_page (n : Nat) : ptx (n * PGSIZE) = n % 1024 := by
  simp [ptx]

/-! ## Trees -/

namespace Mem

/-- **The page directory `d` is in order.** -/
structure Tree (m : Mem) (d : Frame) : Prop where
  dir : (m.page d).isDir
  table : ∀ i, (m.pde d i).p → ∃ e, m.page (m.pde d i).ppn = .table d i e

/-- The pages of which the page directory `d` consists: itself and its page tables. -/
def PartOf (m : Mem) (d g : Frame) : Prop := g = d ∨ ∃ i, (m.pde d i).p ∧ (m.pde d i).ppn = g

/-- **The free list is in order.** -/
structure FreeOk (m : Mem) : Prop where
  nodup : m.freelist.Nodup
  mem_iff : ∀ f, f ∈ m.freelist ↔ (m.page f).isFree

section

variable {m m' m'' : Mem} {d d' g : Frame}

theorem Tree.part (h : m.Tree d) (hg : m.PartOf d g) :
    (m.page g).isFree = false ∧ (m.page g).isData = false := by
  rcases hg with rfl | ⟨i, hi, rfl⟩
  · exact ⟨Page.isFree_of_isDir h.dir, Page.isData_of_isDir h.dir⟩
  · obtain ⟨e, he⟩ := h.table i hi
    rw [he]
    exact ⟨rfl, rfl⟩

theorem Tree.disjoint (h : m.Tree d) (h' : m.Tree d') (hne : d ≠ d') (hg : m.PartOf d g) :
    ¬ m.PartOf d' g := by
  have hd : ∀ {d i}, m.Tree d → (m.pde d i).p → ¬ (m.page (m.pde d i).ppn).isDir := by
    intro d i h hi
    obtain ⟨e, he⟩ := h.table i hi
    rw [he]
    exact Bool.false_ne_true
  rintro (rfl | ⟨j, hj, rfl⟩) <;> rcases hg with hg | ⟨i, hi, hg⟩
  · exact hne hg.symm
  · exact hd h hi (hg ▸ h'.dir)
  · exact hd h' hj (hg ▸ h.dir)
  · -- the tag of the page table names both directories
    obtain ⟨e, he⟩ := h.table i hi
    obtain ⟨e', he'⟩ := h'.table j hj
    rw [hg, he'] at he
    injection he with h1
    exact hne h1.symm

theorem pte_of_pde {n : Nat} (h : (m.pde d (n / 1024)).p) :
    m.pte d n = (m.page (m.pde d (n / 1024)).ppn).entry (n % 1024) := if_pos h

theorem pte_of_not_pde {n : Nat} (h : (m.pde d (n / 1024)).p = false) : m.pte d n = .zero :=
  if_neg (by simp [h])

end

end Mem

/-! ## What stays -/

/-- **Outside `S`, what was not free has stayed what it was**, except for the bytes of ordinary
memory. -/
def Keeps (S : Frame → Prop) (m m' : Mem) : Prop :=
  ∀ g, (m.page g).isFree = false → ¬ S g → (m.page g).Like (m'.page g)

namespace Keeps

variable {S T : Frame → Prop} {m m' m'' : Mem} {d : Frame}

theorem refl (S : Frame → Prop) (m : Mem) : Keeps S m m := fun _ _ _ => .refl _

theorem of_page (S : Frame → Prop) (h : m'.page = m.page) : Keeps S m m' := by
  intro g _ _
  rw [h]
  exact .refl _

theorem replace {f : Frame} (h : ∀ g ≠ f, m'.page g = m.page g) : Keeps (· = f) m m' := by
  intro g _ hg
  rw [h g hg]
  exact .refl _

theorem mono (h : Keeps S m m') (hST : ∀ g, (m.page g).isFree = false → S g → T g) :
    Keeps T m m' :=
  fun g hg hT => h g hg fun hS => hT (hST g hg hS)

/-- What stays twice stays, if the second step has no more room than the first one, up to pages that
were free at the start. -/
theorem trans (h : Keeps S m m') (h' : Keeps T m' m'')
    (hT : ∀ g, T g → S g ∨ (m.page g).isFree) : Keeps S m m'' := by
  intro g hg hS
  have hlike := h g hg hS
  refine hlike.trans (h' g (hlike.isFree.trans hg) fun hg' => ?_)
  rcases hT g hg' with hS' | hf
  · exact hS hS'
  · simp [hg] at hf

theorem eq (h : Keeps S m m') {g : Frame} (hf : (m.page g).isFree = false)
    (hd : (m.page g).isData = false) (hS : ¬ S g) : m'.page g = m.page g :=
  (h g hf hS).eq hd

section

variable (h : Keeps S m m') (ht : m.Tree d) (hS : ∀ g, m.PartOf d g → ¬ S g)
include h ht hS

theorem part {g : Frame} (hg : m.PartOf d g) : m'.page g = m.page g :=
  h.eq (ht.part hg).1 (ht.part hg).2 (hS g hg)

theorem pde (i : Nat) : m'.pde d i = m.pde d i := by
  rw [Mem.pde, Mem.pde, h.part ht hS (.inl rfl)]

theorem pte (n : Nat) : m'.pte d n = m.pte d n := by
  rw [Mem.pte, Mem.pte, h.pde ht hS]
  split
  · rename_i hp
    rw [h.part ht hS (.inr ⟨_, hp, rfl⟩)]
  · rfl

theorem tree : m'.Tree d where
  dir := by
    rw [h.part ht hS (.inl rfl)]
    exact ht.dir
  table i hi := by
    rw [h.pde ht hS] at hi ⊢
    rw [h.part ht hS (.inr ⟨i, hi, rfl⟩)]
    exact ht.table i hi

end

end Keeps

/-- **Only the page `f` was replaced**, which is no part of the directory `d`. -/
structure Swaps (d f : Frame) (m m' : Mem) : Prop where
  was : m.Tree d
  apart : ¬ m.PartOf d f
  page : ∀ g ≠ f, m'.page g = m.page g

namespace Swaps

variable {d f g : Frame} {m m' : Mem} (h : Swaps d f m m')
include h

theorem keeps : Keeps (· = f) m m' := .replace h.page

theorem ne (g : Frame) (hg : m.PartOf d g) : g ≠ f := fun heq => h.apart (heq ▸ hg)

theorem pde (i : Nat) : m'.pde d i = m.pde d i := h.keeps.pde h.was h.ne i

theorem pte (n : Nat) : m'.pte d n = m.pte d n := h.keeps.pte h.was h.ne n

theorem tree : m'.Tree d := h.keeps.tree h.was h.ne

theorem part : m'.PartOf d g ↔ m.PartOf d g := by
  simp only [Mem.PartOf, h.pde]

theorem free (hg : (m'.page g).isFree) : g = f ∨ (m.page g).isFree := by
  by_cases hgf : g = f
  · exact .inl hgf
  · exact .inr (h.page g hgf ▸ hg)

theorem dir (hf : (m'.page f).isDir = false) (hg : (m'.page g).isDir) : (m.page g).isDir := by
  by_cases hgf : g = f
  · simp [hgf, hf] at hg
  · exact h.page g hgf ▸ hg

end Swaps

theorem Mem.Tree.grant {d f : Frame} {m : Mem} (h : m.Tree d) (hf : (m.page f).isFree) :
    Swaps d f m (m.asked.grant f) where
  was := h
  apart hp := by simp [(h.part hp).1] at hf
  page g hg := put_of_ne hg

theorem Mem.Tree.release {d f : Frame} {m : Mem} (h : m.Tree d) (hf : ¬ m.PartOf d f) :
    Swaps d f m (m.release f) :=
  ⟨h, hf, fun _ hg => put_of_ne hg⟩

/-! ## The allocator -/

section

variable {m : Mem}

section

variable (h : m.FreeOk)

include h

theorem Mem.FreeOk.grant {f : Frame} {fs : List Frame} (hf : m.freelist = f :: fs) :
    (m.asked.grant f).FreeOk := by
  have hnd := h.nodup
  rw [hf, List.nodup_cons] at hnd
  refine ⟨by simpa [hf] using hnd.2, fun g => ?_⟩
  have hg := h.mem_iff g
  rw [hf, List.mem_cons] at hg
  by_cases hgf : g = f
  · subst hgf
    simpa [hf, Page.isFree] using hnd.1
  · simpa [hf, put_of_ne hgf, hgf] using hg

theorem Mem.FreeOk.release {f : Frame} (hf : (m.page f).isFree = false) :
    (m.release f).FreeOk := by
  have hnf : f ∉ m.freelist := fun hmem => by simp [(h.mem_iff f).1 hmem] at hf
  refine ⟨List.nodup_cons.2 ⟨hnf, h.nodup⟩, fun g => ?_⟩
  by_cases hgf : g = f
  · simp [hgf, Page.isFree]
  · simp [hgf, put_of_ne hgf, h.mem_iff g]

theorem Mem.FreeOk.of_isFree {m' : Mem} (hl : m'.freelist = m.freelist)
    (hp : ∀ g, (m'.page g).isFree = (m.page g).isFree) : m'.FreeOk :=
  ⟨hl ▸ h.nodup, fun g => by rw [hl, hp, h.mem_iff]⟩

theorem Mem.FreeOk.asked : m.asked.FreeOk := h.of_isFree rfl fun _ => rfl

theorem Mem.FreeOk.setPage {f : Frame} {x : Page} (hf : (m.page f).isFree = false)
    (hx : x.isFree = false) : (m.setPage f x).FreeOk := by
  refine h.of_isFree rfl fun g => ?_
  by_cases hg : g = f
  · simp [hg, hf, hx]
  · simp [put_of_ne hg]

theorem Mem.FreeOk.setEntry (f : Frame) (i : Nat) (e : Pte) :
    (m.setEntry f i e).FreeOk := by
  refine h.of_isFree rfl fun g => ?_
  by_cases hg : g = f
  · simp [hg]
  · simp [put_of_ne hg]

end

end

/-- The panics of code that finds a page mapped, or not mapped, where it relies on the opposite. -/
def Stop.hole (e : Stop) : Bool :=
  e ∈ [.panic "copyuvm: pte should exist", .panic "copyuvm: page not present",
    .panic "linkuvm: pte should exist", .panic "linkuvm: page not present",
    .panic "remap", .panic "unmappage/zero_address"]

/-- The condition on stops: where the memory is known to be in order, code does not stop for
confusion, nor, if `strict`, because of a page that is mapped or not mapped. -/
def Calm {σ : Type} (safe strict : Prop) (e : Stop) (_ : σ) : Prop :=
  safe → e ≠ .confused ∧ (strict → e.hole = false)

section

variable {safe strict : Prop} {m : Mem} {C : Stop → Mem → Prop}

variable {σ : Type} {f : Frame}

theorem calm_panic {msg : String} (s : σ) (h : safe → strict → (Stop.panic msg).hole = false) :
    Calm safe strict (.panic msg) s :=
  fun hs => ⟨Stop.noConfusion, h hs⟩

theorem calm_fault (safe strict : Prop) (s : σ) : Calm safe strict .fault s :=
  fun _ => ⟨Stop.noConfusion, fun _ => rfl⟩

theorem calm_disabled (safe strict : Prop) (s : σ) : Calm safe strict .disabled s :=
  fun _ => ⟨Stop.noConfusion, fun _ => rfl⟩

theorem calm_or {P : Prop} {e : Stop} (h : safe → P) : P ∨ ∀ s : σ, Calm safe strict e s := by
  by_cases hs : safe
  · exact .inl (h hs)
  · exact .inr fun _ h => absurd h hs

theorem calm_panic_or {P : Prop} {msg : String} (h : safe → strict → P) :
    P ∨ ∀ s : σ, Calm safe strict (.panic msg) s := by
  by_cases hst : strict
  · exact calm_or fun hs => h hs hst
  · exact .inr fun s => calm_panic s fun _ h => absurd h hst

theorem kalloc_ends {Q : Option Frame → Mem → Prop} (hm : m.FreeOk ∨ ∀ s, C .confused s)
    (hnone : Q none m.asked)
    (hsome : ∀ f fs, m.freelist = f :: fs → (m.page f).isFree → Q (some f) (m.asked.grant f)) :
    Ends kalloc m Q C := by
  simp only [kalloc, ends_bind, ends_get, ends_modify]
  split
  · exact ends_pure.2 hnone
  · rcases hl : m.freelist with _ | ⟨f, fs⟩
    · exact ends_pure.2 hnone
    · simp only [ends_bind, ends_stopIf, ends_modify, ends_pure]
      refine ⟨fun hf => hm.elim (fun hm => ?_) fun hC => hC _, fun hf => hsome f fs hl
        (by simpa using hf)⟩
      simp [(hm.mem_iff f).1 (by simp [hl])] at hf

theorem kfree_ends_of_phys (L : Layout) {Q : Unit → Mem → Prop}
    (h : f * PGSIZE < PHYSTOP → Q () (m.release f)) : Ends (kfree L f) m Q (Calm safe strict) := by
  simp only [kfree, ends_bind, ends_stopIf, ends_modify, not_or, not_le]
  exact ⟨fun _ => calm_panic m fun _ _ => by decide, fun hf => h hf.2⟩

theorem kfree_ends (L : Layout) {Q : Unit → Mem → Prop} (h : Q () (m.release f)) :
    Ends (kfree L f) m Q (Calm safe strict) :=
  kfree_ends_of_phys L fun _ => h

/-- `kfree` accepts the page. -/
def Layout.Frees (L : Layout) (f : Frame) : Prop :=
  f ≠ 0 ∧ L.kend ≤ f * PGSIZE ∧ f * PGSIZE < PHYSTOP

/-- The page can be given back, or else the panics are allowed. -/
def Layout.Gives (L : Layout) (C : Stop → Mem → Prop) (f : Frame) : Prop :=
  L.Frees f ∨ ∀ s, C (.panic "kfree") s ∧ C (.panic "deallocuvm/kfree") s

theorem Layout.gives_calm (L : Layout) : L.Gives (Calm safe strict) f :=
  .inr fun s => ⟨calm_panic s fun _ _ => by decide, calm_panic s fun _ _ => by decide⟩

theorem kfree_gives (L : Layout) {Q : Unit → Mem → Prop} (hL : L.Gives C f)
    (h : Q () (m.release f)) : Ends (kfree L f) m Q C := by
  simp only [kfree, ends_bind, ends_stopIf, ends_modify]
  refine ⟨fun hbad => hL.elim (fun hL => ?_) fun hC => (hC m).1, fun _ => h⟩
  exact (hbad.elim (not_lt.2 hL.2.1) (not_le.2 hL.2.2)).elim

theorem entriesOf_ends {es : Nat → Pte} {Q : (Nat → Pte) → Mem → Prop}
    (hf : (m.page f).entries = some es) (h : Q es m) : Ends (entriesOf f) m Q C := by
  simp only [entriesOf, ends_bind, ends_get, hf, ends_pure]
  exact h

theorem entriesOf_ends' {Q : (Nat → Pte) → Mem → Prop}
    (hf : (m.page f).entries ≠ none ∨ ∀ s, C .confused s) (h : Q (m.page f).entry m) :
    Ends (entriesOf f) m Q C := by
  rcases hes : (m.page f).entries with _ | es
  · simp only [entriesOf, ends_bind, ends_get, hes, ends_throw]
    exact hf.elim (absurd hes) fun hC => hC m
  · exact entriesOf_ends hes (Page.entry_of_entries hes ▸ h)

end

/-! ## Changes to one directory -/

/-- The pages that were in use as memory have their bytes. -/
def Mem.Exact (m m' : Mem) : Prop := ∀ g, (m.page g).isData → m'.page g = m.page g

section

variable {m m' m'' : Mem} {f : Frame}

theorem Mem.Exact.refl (m : Mem) : m.Exact m := fun _ _ => rfl

theorem Mem.Exact.trans (h : m.Exact m') (h' : m'.Exact m'') : m.Exact m'' := by
  intro g hg
  rw [h' g (by rwa [h g hg]), h g hg]

theorem exact_of_free (hf : (m.page f).isFree) (h : ∀ g ≠ f, m'.page g = m.page g) :
    m.Exact m' := by
  intro g hg
  apply h
  rintro rfl
  simp [Page.isData_of_isFree hf] at hg

end

/-- **The directory `d` was changed, and nothing else**: new page tables were taken from the free
list, and entries of its page tables were written. -/
structure Builds (d : Frame) (m m' : Mem) : Prop where
  tree : m'.Tree d
  same : ∀ g, (m.page g).isFree = false → ¬ m.PartOf d g → m'.page g = m.page g
  grows : ∀ g, m.PartOf d g → m'.PartOf d g
  parts : ∀ g, m'.PartOf d g → m.PartOf d g ∨ (m.page g).isFree
  shrinks : ∀ g, (m'.page g).isFree → (m.page g).isFree
  taken : ∀ g, (m.page g).isFree → (m'.page g).isFree = false → m'.PartOf d g
  dirs : ∀ g, (m'.page g).isDir → (m.page g).isDir

namespace Builds

variable {m m' m'' : Mem} {d : Frame}

theorem keeps (h : Builds d m m') : Keeps (m.PartOf d) m m' := by
  intro g hf hp
  rw [h.same g hf hp]
  exact .refl _

theorem exact (h : Builds d m m') (ht : m.Tree d) : m.Exact m' := by
  intro g hg
  refine h.same g (Page.isFree_of_isData hg) fun hp => ?_
  simp [(ht.part hp).2] at hg

theorem refl (h : m.Tree d) : Builds d m m where
  tree := h
  same _ _ _ := rfl
  grows _ h := h
  parts _ h := .inl h
  shrinks _ h := h
  taken g h h' := by simp [h] at h'
  dirs _ h := h

theorem trans (h : Builds d m m') (h' : Builds d m' m'') : Builds d m m'' where
  tree := h'.tree
  same g hf hp := by
    have hsame := h.same g hf hp
    rw [h'.same g (by rwa [hsame]) fun hp' => ?_, hsame]
    rcases h.parts g hp' with hp' | hf'
    · exact hp hp'
    · simp [hf] at hf'
  grows g hg := h'.grows g (h.grows g hg)
  parts g hg := by
    rcases h'.parts g hg with hg | hg
    · exact h.parts g hg
    · exact .inr (h.shrinks g hg)
  shrinks g hg := h.shrinks g (h'.shrinks g hg)
  taken g hf hf' := by
    rcases hfm : (m'.page g).isFree with _ | _
    · exact h'.grows g (h.taken g hf hfm)
    · exact h'.taken g hfm hf'
  dirs g hg := h.dirs g (h'.dirs g hg)

end Builds

section

variable {m : Mem} {d i j t : Nat} {e : Pte}

theorem Mem.Tree.setPte (h : m.Tree d) (hp : (m.pde d i).p) (ht : (m.pde d i).ppn = t) :
    Builds d m (m.setEntry t j e) ∧ (∀ i', (m.setEntry t j e).pde d i' = m.pde d i') ∧
      ∀ n, (m.setEntry t j e).pte d n =
        if n / 1024 = i ∧ n % 1024 = j then e else m.pte d n := by
  obtain ⟨es, hes⟩ := h.table i hp
  rw [ht] at hes
  have hne : d ≠ t := by
    rintro rfl
    have := h.dir
    rw [hes] at this
    exact Bool.false_ne_true this
  have hpde : ∀ i', (m.setEntry t j e).pde d i' = m.pde d i' := fun i' => by
    simp [Mem.pde, put_of_ne hne]
  have hpart : ∀ g, (m.setEntry t j e).PartOf d g ↔ m.PartOf d g := fun g => by
    simp only [Mem.PartOf, hpde]
  have htable : ∀ g d' i' es', m.page g = .table d' i' es' →
      ∃ es'', (m.setEntry t j e).page g = .table d' i' es'' := by
    intro g d' i' es' hg
    by_cases hgt : g = t
    · subst hgt
      exact ⟨put es' j e, by simp [hg, Page.setEntry]⟩
    · exact ⟨es', by simp [put_of_ne hgt, hg]⟩
  refine ⟨⟨⟨?_, fun i' hi' => ?_⟩, ?_, fun g => (hpart g).2, fun g hg => .inl ((hpart g).1 hg),
    fun g hg => ?_, fun g hf hf' => ?_, fun g hg => ?_⟩, hpde, fun n => ?_⟩
  · simpa [put_of_ne hne] using h.dir
  · rw [hpde] at hi' ⊢
    obtain ⟨es', hes'⟩ := h.table i' hi'
    exact htable _ _ _ _ hes'
  · intro g _ hg
    have hgt : g ≠ t := by
      rintro rfl
      exact hg (.inr ⟨i, hp, ht⟩)
    simp [put_of_ne hgt]
  · by_cases hgt : g = t
    · simpa [hgt] using hg
    · simpa [put_of_ne hgt] using hg
  · by_cases hgt : g = t
    · simp [hgt] at hf hf'
      simp [hf] at hf'
    · simp [put_of_ne hgt, hf] at hf'
  · by_cases hgt : g = t
    · simpa [hgt] using hg
    · simpa [put_of_ne hgt] using hg
  · -- the entry is found in the page table of its own directory entry only
    rw [Mem.pte, Mem.pte, hpde]
    by_cases hn : (m.pde d (n / 1024)).p
    · rw [if_pos hn, if_pos hn]
      by_cases hi : n / 1024 = i
      · rw [hi, ht]
        simp only [Mem.setEntry_page, put_self, true_and,
          Page.entry_setEntry (show (m.page t).entries = some es by rw [hes]; rfl)]
      · have hne' : (m.pde d (n / 1024)).ppn ≠ t := by
          intro heq
          obtain ⟨es', hes'⟩ := h.table _ hn
          rw [heq, hes] at hes'
          injection hes' with _ h2
          exact hi h2.symm
        simp [put_of_ne hne', hi]
    · have hi : n / 1024 ≠ i := by
        rintro rfl
        exact hn hp
      simp [hn, hi]

theorem Mem.Tree.addTable (h : m.Tree d) (hi : (m.pde d i).p = false) {f : Frame}
    {fs : List Frame} (hl : m.freelist = f :: fs) (hf : (m.page f).isFree) (es : Nat → Pte) :
    let m' := ((m.asked.grant f).setPage f (.table d i es)).setEntry d i ⟨f, true, true, true⟩
    Builds d m m' ∧ (m.FreeOk → m'.FreeOk) ∧
      (∀ i', m'.pde d i' = if i' = i then ⟨f, true, true, true⟩ else m.pde d i') ∧
      ∀ n, m'.pte d n = if n / 1024 = i then es (n % 1024) else m.pte d n := by
  intro m'
  have hne : d ≠ f := by
    rintro rfl
    simp [Page.isFree_of_isDir h.dir] at hf
  have hdir := Page.entries_of_isDir h.dir
  have hpage : ∀ g, m'.page g = if g = d then (m.page d).setEntry i ⟨f, true, true, true⟩
      else if g = f then .table d i es else m.page g := by
    intro g
    simp only [m', Mem.setEntry_page, Mem.setPage_page, Mem.grant_page, Mem.asked_page]
    by_cases hgd : g = d
    · simp [hgd, put_of_ne hne]
    · by_cases hgf : g = f
      · simp [hgf, put_of_ne hne.symm, hne.symm]
      · simp [hgd, hgf, put_of_ne hgd, put_of_ne hgf]
  have hpde : ∀ i', m'.pde d i' = if i' = i then ⟨f, true, true, true⟩ else m.pde d i' := by
    intro i'
    rw [Mem.pde, hpage, if_pos rfl, Page.entry_setEntry hdir]
    rfl
  have hpart : ∀ g, m'.PartOf d g → m.PartOf d g ∨ (m.page g).isFree := by
    rintro g (rfl | ⟨i', hi', rfl⟩)
    · exact .inl (.inl rfl)
    · rw [hpde] at hi' ⊢
      split at hi'
      · exact .inr (by simp [*])
      · exact .inl (.inr ⟨i', hi', by simp [*]⟩)
  refine ⟨⟨⟨?_, fun i' hi' => ?_⟩, fun g hg hg' => ?_, ?_, hpart, fun g hg => ?_,
    fun g hg hg' => ?_, fun g hg => ?_⟩, fun hok => ?_, hpde, fun n => ?_⟩
  · rw [hpage, if_pos rfl]
    simpa using h.dir
  · rw [hpde] at hi' ⊢
    by_cases hii : i' = i
    · subst hii
      rw [if_pos rfl, hpage, if_neg hne.symm, if_pos rfl]
      exact ⟨es, rfl⟩
    · rw [if_neg hii] at hi' ⊢
      obtain ⟨es', hes'⟩ := h.table i' hi'
      refine ⟨es', ?_⟩
      rw [hpage, if_neg, if_neg, hes']
      · rintro heq
        rw [heq] at hes'
        simp [hes', Page.isFree] at hf
      · rintro heq
        have := h.dir
        rw [heq] at hes'
        simp [hes', Page.isDir] at this
  · rw [hpage, if_neg fun hgd => hg' (.inl hgd), if_neg]
    rintro rfl
    simp [hf] at hg
  · rintro g (rfl | ⟨i', hi', rfl⟩)
    · exact .inl rfl
    · have hii : i' ≠ i := by
        rintro rfl
        simp [hi] at hi'
      exact .inr ⟨i', by rw [hpde, if_neg hii]; exact ⟨hi', rfl⟩⟩
  · rw [hpage] at hg
    split at hg
    · rename_i hgd
      simpa [hgd] using hg
    · split at hg
      · cases hg
      · exact hg
  · rw [hpage] at hg'
    split at hg'
    · rename_i hgd
      exact .inl hgd
    · split at hg'
      · exact .inr ⟨i, by simp [*]⟩
      · simp [hg] at hg'
  · rw [hpage] at hg
    split at hg
    · rename_i hgd
      simpa [hgd] using hg
    · split at hg
      · cases hg
      · exact hg
  · exact ((hok.grant hl).setPage (by simp [Page.isFree]) rfl).setEntry _ _ _
  · rw [Mem.pte, Mem.pte, hpde]
    by_cases hn : n / 1024 = i
    · simp only [hn, if_true]
      rw [hpage, if_neg hne.symm, if_pos rfl]
      rfl
    · rw [if_neg hn, if_neg hn]
      split
      · rename_i hp
        obtain ⟨es', hes'⟩ := h.table _ hp
        rw [hpage, if_neg, if_neg]
        · rintro heq
          rw [heq] at hes'
          simp [hes', Page.isFree] at hf
        · rintro heq
          have := h.dir
          rw [heq] at hes'
          simp [hes', Page.isDir] at this
      · rfl

end

/-! ## Walking -/

section

variable {safe strict : Prop} {m : Mem} {d va : Nat} {C : Stop → Mem → Prop}

theorem walk_ends {Q : Option (Frame × Nat) → Mem → Prop}
    (hd : (m.page d).entries ≠ none ∨ ∀ s, C .confused s)
    (h : Q (if (m.pde d (pdx va)).p then some ((m.pde d (pdx va)).ppn, ptx va) else none) m) :
    Ends (walkpgdir d va false) m Q C := by
  simp only [walkpgdir, ends_bind]
  refine entriesOf_ends' hd ?_
  show Ends (if (m.pde d (pdx va)).p then pure (some ((m.pde d (pdx va)).ppn, ptx va)) else _)
    m Q C
  split at h <;> simp_all

theorem readPte_ends {Q : Pte → Mem → Prop} (hp : (m.pde d (pdx va)).p)
    (ht : (m.page (m.pde d (pdx va)).ppn).entries ≠ none ∨ ∀ s, C .confused s)
    (h : Q (m.pte d (va / PGSIZE)) m) :
    Ends (readPte ((m.pde d (pdx va)).ppn, ptx va)) m Q C := by
  simp only [readPte, ends_bind]
  refine entriesOf_ends' ht ?_
  rw [ends_pure]
  rwa [Mem.pte_of_pde hp] at h

theorem Mem.Tree.entries (h : m.Tree d) {i : Nat} (hi : (m.pde d i).p) :
    (m.page (m.pde d i).ppn).entries ≠ none := by
  obtain ⟨e, he⟩ := h.table i hi
  simp [he, Page.entries]

theorem Mem.Tree.dir_entries (h : m.Tree d) : (m.page d).entries ≠ none := by
  simp [Page.entries_of_isDir h.dir]

/-- **`walkpgdir` with allocation**: out of memory, or there is a page table now and every mapping
is as before. -/
theorem walkpgdir_spec (ht : m.Tree d) (hm : m.FreeOk ∨ ∀ s, C .confused s) :
    Ends (walkpgdir d va true) m
      (fun r m' => (r = none → m' = m.asked ∧ m.pte d (va / PGSIZE) = .zero) ∧
        ∀ loc, r = some loc → Builds d m m' ∧ (m.FreeOk → m'.FreeOk) ∧ (m'.pde d (pdx va)).p ∧
        loc = ((m'.pde d (pdx va)).ppn, ptx va) ∧ (∀ i ≠ pdx va, m'.pde d i = m.pde d i) ∧
        ∀ n, m'.pte d n = m.pte d n) C := by
  simp only [walkpgdir, ends_bind]
  refine entriesOf_ends' (.inl ht.dir_entries) ?_
  show Ends (if (m.pde d (pdx va)).p then pure (some ((m.pde d (pdx va)).ppn, ptx va)) else _) m _ _
  split
  · rename_i hp
    simpa using ⟨Builds.refl ht, hp⟩
  · rename_i hp
    simp only [if_true, ends_bind]
    refine kalloc_ends hm ?_ fun f fs hl hf => ?_
    · exact ⟨fun _ => ⟨rfl, Mem.pte_of_not_pde (by simpa [pdx] using hp)⟩, by simp⟩
    -- a page table without entries adds no mapping
    obtain ⟨hb, hok, hpde, hpte⟩ :=
      ht.addTable (i := pdx va) (by simpa using hp) hl hf fun _ => .zero
    simp only [ends_bind, ends_modify, ends_pure]
    refine ⟨by simp, fun loc hloc => ?_⟩
    cases hloc
    refine ⟨hb, hok, by simp [hpde], by simp [hpde], fun i hi => ?_, fun n => ?_⟩
    · rw [hpde, if_neg hi]
    rw [hpte]
    split
    · rename_i hn
      rw [Mem.pte_of_not_pde (by rw [hn]; simpa using hp)]
    · rfl

theorem page_split {n k : Nat} : n / 1024 = k / 1024 ∧ n % 1024 = k % 1024 ↔ n = k := by
  omega

theorem Mem.Tree.writePte (ht : m.Tree d) {e : Pte} (hp : (m.pde d (pdx va)).p) :
    let m' := m.setEntry (m.pde d (pdx va)).ppn (ptx va) e
    Builds d m m' ∧ (∀ i, m'.pde d i = m.pde d i) ∧
      ∀ n, m'.pte d n = if n = va / PGSIZE then e else m.pte d n := by
  intro m'
  obtain ⟨hb, hpde, hpte⟩ := ht.setPte (j := ptx va) (e := e) hp rfl
  refine ⟨hb, hpde, fun n => ?_⟩
  rw [hpte]
  simp only [pdx, ptx, page_split]

/-- **`mappages` of one page**: out of memory, or the page is mapped and nothing else has
changed. -/
theorem mappages_spec (ht : m.Tree d) (hm : m.FreeOk ∨ ∀ s, C .confused s)
    (hnew : (m.pte d (va / PGSIZE)).p = false ∨ ∀ s, C (.panic "remap") s) (f : Frame)
      (w u : Bool) :
    Ends (mappages d va f w u) m
      (fun ok m' => (ok = false → m' = m.asked ∧ m.pte d (va / PGSIZE) = .zero) ∧
        (ok = true → Builds d m m' ∧ (m.FreeOk → m'.FreeOk) ∧ (m.pte d (va / PGSIZE)).p = false ∧
          (∀ i ≠ pdx va, m'.pde d i = m.pde d i) ∧
          ∀ n, m'.pte d n = if n = va / PGSIZE then ⟨f, true, w, u⟩ else m.pte d n)) C := by
  simp only [mappages, ends_bind]
  refine (walkpgdir_spec ht hm).imp ?_
  rintro (_ | loc) m1 ⟨hnone, hsome⟩
  · simpa using hnone rfl
  · obtain ⟨hb, hok, hp, rfl, hpde, hpte⟩ := hsome loc rfl
    simp only [ends_bind]
    refine readPte_ends hp (.inl (hb.tree.entries hp)) ?_
    simp only [ends_stopIf, Memory.writePte, ends_modify, ends_pure]
    refine ⟨fun hp => hnew.elim (fun hnew => ?_) fun hC => hC _, fun hnot => ⟨by simp, fun _ => ?_⟩⟩
    · rw [hpte, hnew] at hp
      cases hp
    obtain ⟨hb', hpde', hpte'⟩ := hb.tree.writePte (e := ⟨f, true, w, u⟩) hp
    refine ⟨hb.trans hb', fun hm => (hok hm).setEntry _ _ _, ?_, fun i hi => ?_, fun n => ?_⟩
    · rw [← hpte]
      simpa using hnot
    · rw [hpde', hpde i hi]
    · rw [hpte', hpte]

theorem presentPte_ends {name : String} {n : Nat} {Q : Pte → Mem → Prop}
    (ht : safe → m.Tree d) (hpres : safe → strict → (m.pte d n).p)
    (h : (m.pte d n).p → Q (m.pte d n) m) :
    Ends (presentPte name d n) m Q (Calm safe strict) := by
  simp only [presentPte, ends_bind]
  refine walk_ends (calm_or fun hs => (ht hs).dir_entries) ?_
  by_cases hp : (m.pde d (pdx (n * PGSIZE))).p
  · simp only [hp, if_true, ends_bind]
    refine readPte_ends hp (calm_or fun hs => (ht hs).entries hp) ?_
    simp only [ends_stopIf, ends_pure]
    refine ⟨fun hnot => calm_panic _ fun hs hst => ?_, fun hnot => ?_⟩
    · rw [Nat.mul_div_cancel n (by decide), hpres hs hst] at hnot
      cases hnot
    · simpa using h (by simpa using hnot)
  · simp only [hp, Bool.false_eq_true, if_false, ends_throw]
    refine calm_panic _ fun hs hst => ?_
    -- without a page table the page is not mapped
    have := hpres hs hst
    rw [Mem.pte_of_not_pde (by simpa using hp)] at this
    exact absurd this Bool.false_ne_true

end

end Xv6.Memory
