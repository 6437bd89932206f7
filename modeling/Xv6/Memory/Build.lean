import Xv6.Memory.Release

/-! # Building address spaces

`fork`, `thread_create` and `exec` build a new page directory before they use it. `Building d m0 m`
says that since `m0` the directory `d` has been built out of pages that were free, and that nothing
else has changed but bytes of ordinary memory. If the building is given up, `freevm` brings the
memory back to what it was: `Restored`. -/

namespace Xv6.Memory

open Foundation

variable (L : Layout)

/-! ## Stores of data -/

/-- **Only bytes of ordinary memory have changed.** -/
structure DataOnly (m m' : Mem) : Prop where
  page : ∀ g, (m.page g).Like (m'.page g)
  freelist : m'.freelist = m.freelist

theorem Page.Like.entry {x y : Page} (h : x.Like y) : y.entry = x.entry := by
  rcases h with rfl | ⟨hx, hy⟩
  · rfl
  · funext i
    cases x <;> cases y <;> simp_all [Page.isData, Page.entry]

theorem Page.Like.isDir {x y : Page} (h : x.Like y) : y.isDir = x.isDir := by
  rcases h with rfl | ⟨hx, hy⟩
  · rfl
  · cases x <;> cases y <;> simp_all [Page.isData, Page.isDir]

namespace DataOnly

variable {m m' m'' : Mem} {d : Frame}

theorem refl (m : Mem) : DataOnly m m := ⟨fun _ => .refl _, rfl⟩

theorem asked (m : Mem) : DataOnly m m.asked := ⟨fun _ => .refl _, rfl⟩

section

variable (h : DataOnly m m')

include h

theorem trans (h' : DataOnly m' m'') : DataOnly m m'' :=
  ⟨fun g => (h.page g).trans (h'.page g), h'.freelist.trans h.freelist⟩

theorem pde (d : Frame) (i : Nat) : m'.pde d i = m.pde d i := by
  rw [Mem.pde, Mem.pde, (h.page d).entry]

theorem pte (d : Frame) (n : Nat) : m'.pte d n = m.pte d n := by
  rw [Mem.pte, Mem.pte, h.pde, (h.page _).entry]

theorem frameAt (d : Frame) (va : Nat) : m'.frameAt d va = m.frameAt d va := by
  rw [Mem.frameAt, Mem.frameAt, h.pte]

theorem keeps (S : Frame → Prop) : Keeps S m m' := fun g _ _ => h.page g

theorem freeOk (hm : m.FreeOk) : m'.FreeOk :=
  hm.of_isFree h.freelist fun g => (h.page g).isFree

theorem partOf (d g : Frame) : m'.PartOf d g ↔ m.PartOf d g := by
  simp only [Mem.PartOf, h.pde]

theorem tree (ht : m.Tree d) : m'.Tree d :=
  (h.keeps fun _ => False).tree ht fun _ _ h => h

end

theorem setPage {f : Frame} (hf : (m.page f).isData) (b : Nat → UInt8) :
    DataOnly m (m.setPage f (.data b)) := by
  refine ⟨fun g => ?_, rfl⟩
  by_cases hg : g = f
  · subst hg
    exact .inr ⟨hf, by simp [Page.isData]⟩
  · simpa [put_of_ne hg] using Page.Like.refl _

end DataOnly

section

variable {safe strict : Prop} {m : Mem} {d va : Nat}

theorem loadByte_spec : Ends (loadByte d va) m (fun _ m' => m' = m) (Calm safe strict) := by
  simp only [loadByte, ends_bind, ends_get]
  split
  · exact calm_fault _ _ m
  · simp

theorem loadWord_spec : Ends (loadWord d va) m (fun _ m' => m' = m) (Calm safe strict) := by
  have hb : ∀ {Q : UInt8 → Mem → Prop} {va : Nat}, (∀ b, Q b m) →
      Ends (loadByte d va) m Q (Calm safe strict) := fun h =>
    loadByte_spec.imp (fun b m' hm => hm ▸ h b)
  simp only [loadWord, ends_bind, ends_pure]
  exact hb fun _ => hb fun _ => hb fun _ => hb fun _ => rfl

theorem pokeByte_spec {f i : Nat} {b : UInt8} (hf : safe → (m.page f).isData) :
    Ends (pokeByte f i b) m (fun _ m' => DataOnly m m') (Calm safe strict) := by
  simp only [pokeByte, ends_bind, ends_get]
  rcases hp : m.page f with bs | bs | bs | es | ⟨d, j, es⟩
  case data => exact DataOnly.setPage (by rw [hp]; rfl) _
  all_goals
    intro hs
    have := hf hs
    simp [hp, Page.isData] at this

theorem pokeBytes_spec {f i : Nat} {bs : List UInt8} (hf : safe → (m.page f).isData) :
    Ends (pokeBytes f i bs) m (fun _ m' => DataOnly m m') (Calm safe strict) := by
  induction bs generalizing i m with
  | nil => exact .refl m
  | cons b bs ih =>
    simp only [pokeBytes, ends_bind]
    refine (pokeByte_spec hf).imp (fun _ m1 h1 => ?_)
    refine (ih fun hs => (h1.page f).isData ▸ hf hs).imp (fun _ m2 h2 => ?_)
    exact h1.trans h2

/-- What the kernel stores to is ordinary memory. -/
def Mem.Storable (m : Mem) (d va : Nat) : Prop :=
  ∀ f w, m.frameAt d va = some (f, w) → (m.page f).isData

theorem DataOnly.storable {m' : Mem} (h : DataOnly m m') (hs : m.Storable d va) :
    m'.Storable d va := by
  intro f w hf
  rw [h.frameAt] at hf
  rw [(h.page f).isData]
  exact hs f w hf

theorem storeByte_spec {b : UInt8} (hs : safe → m.Storable d va) :
    Ends (storeByte d va b) m (fun _ m' => DataOnly m m') (Calm safe strict) := by
  simp only [storeByte, ends_bind, ends_get]
  rcases hf : m.frameAt d va with _ | ⟨f, w⟩
  · exact calm_fault _ _ m
  · simp only [ends_bind, ends_stopIf]
    exact ⟨fun _ => calm_fault _ _ m, fun _ => pokeByte_spec fun h => hs h f w hf⟩

theorem storeWord_spec {x : Nat} (hs : safe → ∀ k : Nat, k < 4 → m.Storable d (uint32 (va + k)))
    (hva : uint32 va = va) :
    Ends (storeWord d va x) m (fun _ m' => DataOnly m m') (Calm safe strict) := by
  simp only [storeWord, ends_bind]
  refine (storeByte_spec fun h => ?_).imp (fun _ m1 h1 => ?_)
  · simpa [hva] using hs h 0 (by omega)
  refine (storeByte_spec fun h => ?_).imp (fun _ m2 h2 => ?_)
  · exact h1.storable (hs h 1 (by omega))
  refine (storeByte_spec fun h => ?_).imp (fun _ m3 h3 => ?_)
  · exact (h1.trans h2).storable (hs h 2 (by omega))
  refine (storeByte_spec fun h => ?_).imp (fun _ m4 h4 => ?_)
  · exact ((h1.trans h2).trans h3).storable (hs h 3 (by omega))
  exact ((h1.trans h2).trans h3).trans h4

end

/-! ## A directory under construction -/

/-- **The directory `d` has been built since `m0`**, out of pages that were free then, and nothing
else has changed. -/
structure Building (d : Frame) (m0 m : Mem) : Prop where
  tree : m.Tree d
  fresh : ∀ g, m.PartOf d g → (m0.page g).isFree
  keeps : Keeps (fun _ => False) m0 m
  shrinks : ∀ g, (m.page g).isFree → (m0.page g).isFree
  dirs : ∀ g, (m.page g).isDir → g = d ∨ (m0.page g).isDir

/-- **The memory is back to what it was at `m0`.** -/
structure Restored (m0 m : Mem) : Prop where
  free : m.FreeOk
  keeps : Keeps (fun _ => False) m0 m
  dirs : ∀ g, (m.page g).isDir → (m0.page g).isDir

namespace Building

variable {d : Frame} {m0 m m' : Mem}

section

variable (h : Building d m0 m)

include h

theorem builds (hb : Builds d m m') : Building d m0 m' where
  tree := hb.tree
  fresh g hg := by
    rcases hb.parts g hg with hg | hg
    · exact h.fresh g hg
    · exact h.shrinks g hg
  keeps := h.keeps.trans hb.keeps fun g hg => .inr (h.fresh g hg)
  shrinks g hg := h.shrinks g (hb.shrinks g hg)
  dirs g hg := h.dirs g (hb.dirs g hg)

theorem data (hd : DataOnly m m') : Building d m0 m' where
  tree := hd.tree h.tree
  fresh g hg := h.fresh g ((hd.partOf d g).1 hg)
  keeps := h.keeps.trans (hd.keeps fun _ => False) fun _ h => h.elim
  shrinks g hg := h.shrinks g ((hd.page g).isFree ▸ hg)
  dirs g hg := h.dirs g ((hd.page g).isDir ▸ hg)

theorem change {f : Frame} (hf : (m0.page f).isFree) (hs : Swaps d f m m')
    (hx : (m'.page f).isDir = false) : Building d m0 m' where
  tree := hs.tree
  fresh g hg := h.fresh g (hs.part.1 hg)
  keeps := h.keeps.trans hs.keeps fun g hg => .inr (hg ▸ hf)
  shrinks g hg := by
    rcases hs.free hg with rfl | hg
    · exact hf
    · exact h.shrinks g hg
  dirs g hg := h.dirs g (hs.dir hx hg)

/-- **Giving up**: if nothing is mapped in `d` but pages taken since `m0`, then `freevm` restores
the memory. -/
theorem restored (ht : Torn d 0 0 m m')
    (hmap : ∀ g, m.MapsIn d 0 UPAGES g → (m0.page g).isFree) : Restored m0 m' := by
  refine ⟨ht.free, fun g hg hS => ?_, fun g hg => ?_⟩
  · have hpart : ¬ m.PartOf d g := fun hp => by simp [h.fresh g hp] at hg
    have hnot : ¬ m.MapsIn d 0 UPAGES g := fun hp => by simp [hmap g hp] at hg
    rw [ht.kept g hpart hnot]
    exact h.keeps g hg hS
  · -- what is a directory now was one before, since `d` and its page tables are none any more
    have hnot : ∀ {g}, (m'.page g).isFree → ¬ (m'.page g).isDir := fun hf hd => by
      simp [Page.isDir_of_isFree hf] at hd
    by_cases hgd : g = d
    · exact absurd hg (hnot (ht.freed g (.inl hgd)))
    by_cases hmaps : m.MapsIn d 0 UPAGES g
    · exact absurd hg (hnot (ht.freed g (.inr (.inl hmaps))))
    by_cases hpart : m.PartOf d g
    · by_cases htab : m.TableIn d 0 NPDENTRIES g
      · exact absurd hg (hnot (ht.freed g (.inr (.inr htab))))
      · obtain ⟨i, es, he⟩ := ht.left g hpart hgd htab
        rw [he] at hg
        cases hg
    · rw [ht.kept g hpart hmaps] at hg
      exact (h.dirs g hg).resolve_left hgd

theorem old_pte {d' : Frame} (ht : m0.Tree d') (n : Nat) :
    m.pte d' n = m0.pte d' n :=
  h.keeps.pte ht (fun _ _ h => h) n

theorem old_tree {d' : Frame} (ht : m0.Tree d') : m.Tree d' :=
  h.keeps.tree ht fun _ _ h => h

end

end Building

/-! ## The kernel half -/

section

variable {safe strict : Prop} {d : Frame} {m : Mem}

/-- **The kernel half of a directory**, page table by page table. -/
theorem mapKernel_spec (is : List Nat) (ht : m.Tree d) (hm : safe → m.FreeOk) (hnd : is.Nodup)
    (hnot : ∀ i ∈ is, (m.pde d i).p = false) :
    Ends (mapKernel L d is) m
      (fun ok m' => Builds d m m' ∧ (safe → m'.FreeOk) ∧ (∀ i ∉ is, m'.pde d i = m.pde d i) ∧
        (∀ n, n / 1024 ∉ is → m'.pte d n = m.pte d n) ∧
        (ok = true → (∀ i ∈ is, (m'.pde d i).p) ∧
          ∀ n, n / 1024 ∈ is → m'.pte d n = kmapEntry L (n / 1024) (n % 1024)))
      (Calm safe strict) := by
  induction is generalizing m with
  | nil => simpa [mapKernel] using ⟨Builds.refl ht, hm⟩
  | cons i is ih =>
    obtain ⟨hi, hnd⟩ := List.nodup_cons.1 hnd
    simp only [mapKernel, ends_bind]
    refine kalloc_ends (calm_or hm) ?_ fun f fs hl hf => ?_
    · have hasked := DataOnly.asked m
      refine ⟨⟨hasked.tree ht, fun _ _ _ => rfl, fun _ h => h, fun _ h => .inl h, fun _ h => h,
        fun g h h' => ?_, fun _ h => h⟩, fun hs => (hm hs).asked, fun _ _ => rfl, fun _ _ => rfl,
        by simp⟩
      simp [h] at h'
    · obtain ⟨hb, hok, hpde, hpte⟩ := ht.addTable (hnot i (by simp)) hl hf (kmapEntry L i)
      simp only [ends_bind, ends_modify]
      refine (ih hb.tree (fun hs => hok (hm hs)) hnd fun j hj => ?_).imp ?_
      · rw [hpde, if_neg (by rintro rfl; exact hi hj)]
        exact hnot j (by simp [hj])
      · rintro ok m' ⟨hb', hok', hpde', hpte', hall⟩
        refine ⟨hb.trans hb', hok', fun j hj => ?_, fun n hn => ?_, fun h => ⟨?_, fun n hn => ?_⟩⟩
        · simp only [List.mem_cons, not_or] at hj
          rw [hpde' j hj.2, hpde, if_neg hj.1]
        · simp only [List.mem_cons, not_or] at hn
          rw [hpte' n hn.2, hpte, if_neg hn.1]
        · intro j hj
          rcases List.mem_cons.1 hj with rfl | hj
          · rw [hpde' j hi, hpde, if_pos rfl]
          · exact (hall h).1 j hj
        · rcases List.mem_cons.1 hn with hn | hn
          · rw [hpte' n (hn ▸ hi), hpte, if_pos hn, hn]
          · exact (hall h).2 n hn

theorem ends_unsafe {α : Type} {c : Code α} {Q : α → Mem → Prop} (hs : ¬ safe)
    (hQ : ∀ a m', Q a m') : Ends c m Q (Calm safe strict) := by
  unfold Ends
  split
  · exact hQ _ _
  · exact fun h => absurd h hs

/-- The entry for the virtual page `n` in every new directory. -/
def kernelPte (n : Nat) : Pte :=
  if n / 1024 ∈ kernelTables then kmapEntry L (n / 1024) (n % 1024) else .zero

/-- **A new directory**: the kernel half as in every address space, and nothing in the user half. -/
structure Fresh (d : Frame) (m0 m : Mem) : Prop extends Building d m0 m where
  pde : ∀ i, (m.pde d i).p ↔ i ∈ kernelTables
  pte : ∀ n, m.pte d n = kernelPte L n
  taken : ∀ g, (m0.page g).isFree → (m.page g).isFree = false → m.PartOf d g
  exact : m0.Exact m

theorem notMem_kernelTables {n : Nat} (h : n < UPAGES) : n / 1024 ∉ kernelTables := by
  have hU : UPAGES = 512 * 1024 := rfl
  have hlow : ∀ i ∈ kernelTables, 512 ≤ i := by decide
  intro hmem
  have := hlow _ hmem
  omega

theorem kernelPte_user {n : Nat} (hn : n < UPAGES) : kernelPte L n = .zero :=
  if_neg (notMem_kernelTables hn)

theorem kernelPte_u (n : Nat) : (kernelPte L n).u = false := by
  unfold kernelPte kmapEntry
  split
  · simp only
    split_ifs <;> rfl
  · rfl

theorem kernelPte_first : (kernelPte L UPAGES).p := by
  have h : kernelPte L UPAGES = kmapEntry L 512 0 := if_pos (by decide)
  rw [h]
  rfl

theorem building_new {f : Frame} {fs : List Frame} (hl : m.freelist = f :: fs)
    (hf : (m.page f).isFree) :
    let m' := (m.asked.grant f).setPage f (.dir fun _ => .zero)
    Building f m m' ∧ (m.FreeOk → m'.FreeOk) ∧ (∀ i, (m'.pde f i).p = false) ∧
      ∀ g, (m.page g).isFree → (m'.page g).isFree = false → g = f := by
  intro m'
  have hpage : ∀ g, m'.page g = if g = f then .dir fun _ => .zero else m.page g := by
    intro g
    by_cases hg : g = f
    · simp [m', hg]
    · simp [m', hg, put_of_ne hg]
  have hpde : ∀ i, (m'.pde f i).p = false := fun i => by
    rw [Mem.pde, hpage, if_pos rfl]
    rfl
  refine ⟨⟨⟨by rw [hpage, if_pos rfl]; rfl, fun i hi => by simp [hpde] at hi⟩, ?_, fun g hg _ => ?_,
    fun g hg => ?_, fun g hg => ?_⟩, fun hok => ?_, hpde, fun g hg hg' => ?_⟩
  · rintro g (rfl | ⟨i, hi, -⟩)
    · exact hf
    · simp [hpde] at hi
  · rw [hpage, if_neg]
    · exact .refl _
    · rintro rfl
      simp [hf] at hg
  · rw [hpage] at hg
    split at hg
    · cases hg
    · exact hg
  · rw [hpage] at hg
    split at hg
    · exact .inl ‹_›
    · exact .inr hg
  · exact (hok.grant hl).setPage (by simp [Page.isFree]) rfl
  · by_contra hgf
    rw [hpage, if_neg hgf, hg] at hg'
    cases hg'

/-- **`setupkvm`** gives a new directory, or leaves the memory as it was. -/
theorem setupkvm_spec (hm : safe → m.FreeOk) :
    Ends (setupkvm L) m
      (fun r m' => (r = none → safe → Restored m m') ∧
        ∀ d, r = some d → Fresh L d m m' ∧ (safe → m'.FreeOk))
      (Calm safe strict) := by
  simp only [setupkvm, ends_bind]
  refine kalloc_ends (calm_or hm) ?_ fun f fs hl hf => ?_
  · exact ⟨fun _ hs => ⟨(hm hs).asked, .of_page _ rfl, fun _ h => h⟩, by simp⟩
  obtain ⟨hb, hok, hpde, htaken⟩ := building_new hl hf
  simp only [ends_bind, ends_modify]
  refine (mapKernel_spec L kernelTables hb.tree (fun hs => hok (hm hs)) (by decide)
    fun i _ => hpde i).imp ?_
  rintro ok m' ⟨hb', hok', hpde', hpte', hall⟩
  have hbuild := hb.builds hb'
  have hzero : ∀ n, n / 1024 ∉ kernelTables → m'.pte f n = .zero := fun n hn => by
    rw [hpte' n hn, Mem.pte_of_not_pde (hpde _)]
  cases ok with
  | true =>
    refine ⟨by simp, fun d hd => ?_⟩
    cases hd
    obtain ⟨hall, hkmap⟩ := hall rfl
    refine ⟨⟨hbuild, fun i => ⟨fun hi => ?_, hall i⟩, fun n => ?_, fun g hg hg' => ?_,
      .trans (exact_of_free hf fun g hg => by simp [put_of_ne hg]) (hb'.exact hb.tree)⟩, hok'⟩
    · by_contra hnot
      rw [hpde' i hnot, hpde] at hi
      cases hi
    · unfold kernelPte
      split
      · exact hkmap n ‹_›
      · exact hzero n ‹_›
    · -- taken for a page table, or the directory itself
      rcases hgf : (((m.asked.grant f).setPage f (.dir fun _ => .zero)).page g).isFree with _ | _
      · exact .inl (htaken g hg hgf)
      · exact hb'.taken g hgf hg'
  | false =>
    simp only [Bool.false_eq_true, if_false, ends_bind]
    by_cases hs : safe
    · have hnone : ∀ n, n < UPAGES → (m'.pte f n).p = false := fun n hn => by
        rw [hzero n (notMem_kernelTables hn), Pte.zero_p]
      refine (freevm_spec L (hok' hs) hb'.tree ⟨fun n _ hn hp => ?_,
          fun n k _ hn _ _ hp => ?_⟩).mono
        ?_ fun e m h _ => h trivial
      · simp [hnone n hn] at hp
      · simp [hnone n hn] at hp
      · intro _ m'' ht
        refine ⟨fun _ _ => hbuild.restored ht ?_, by simp⟩
        rintro g ⟨n, -, hn, hp, -⟩
        simp [hnone n hn] at hp
    · exact ends_unsafe hs fun _ _ => ⟨fun _ h => absurd h hs, by simp⟩

end

end Xv6.Memory
