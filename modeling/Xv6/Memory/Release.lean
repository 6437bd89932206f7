import Mathlib.Data.List.Intervals
import Xv6.Memory.Tables

/-! # Giving pages back

What `deallocuvm`, `freevm` and `freethread` free. Each of them is given a page directory and
decides by address alone: `deallocuvm` frees every page that is mapped in a range, `freevm` every
mapped page of the user half with the page tables and the directory. None of them can know whether
a page is mapped elsewhere as well.

* **`deallocuvm_spec`** — the pages mapped in the range are free afterwards, and no other page has
  changed.
* **`freevm_spec`**, **`freethread_spec`** — the same with the directory and its page tables.

The free list stays in order provided that each of the pages is ordinary memory and mapped once in
the range: `Freeable`. -/

namespace Xv6.Memory

open Foundation

variable (L : Layout)

namespace Mem

/-- The page `g` is mapped in `d` at one of the virtual pages `lo, …, hi - 1`. -/
def MapsIn (m : Mem) (d lo hi : Nat) (g : Frame) : Prop :=
  ∃ n, lo ≤ n ∧ n < hi ∧ (m.pte d n).p ∧ (m.pte d n).ppn = g

/-- The pages mapped at the virtual pages `lo, …, hi - 1` of `d`, in this order. -/
def mapped (m : Mem) (d lo hi : Nat) : List Frame :=
  ((List.Ico lo hi).filter fun n => (m.pte d n).p).map fun n => (m.pte d n).ppn

/-- What is mapped in the range is ordinary memory, each page once. -/
structure Freeable (m : Mem) (d lo hi : Nat) : Prop where
  data : ∀ n, lo ≤ n → n < hi → (m.pte d n).p → (m.page (m.pte d n).ppn).isData
  inj : ∀ n k, lo ≤ n → n < hi → lo ≤ k → k < hi → (m.pte d n).p → (m.pte d k).p →
    (m.pte d n).ppn = (m.pte d k).ppn → n = k

variable {m : Mem} {d lo hi : Nat}

theorem mem_mapped {g : Frame} : g ∈ m.mapped d lo hi ↔ m.MapsIn d lo hi g := by
  simp only [mapped, MapsIn, List.mem_map, List.mem_filter, List.Ico.mem, and_assoc]

theorem Freeable.mono {lo' : Nat} (h : m.Freeable d lo hi) (hlo : lo ≤ lo') :
    m.Freeable d lo' hi where
  data n hn := h.data n (hlo.trans hn)
  inj n k hn hn' hk := h.inj n k (hlo.trans hn) hn' (hlo.trans hk)

theorem Freeable.restrict {hi' : Nat} (h : m.Freeable d lo hi) (hhi : hi' ≤ hi) :
    m.Freeable d lo hi' where
  data n hn hn' := h.data n hn (hn'.trans_le hhi)
  inj n k hn hn' hk hk' := h.inj n k hn (hn'.trans_le hhi) hk (hk'.trans_le hhi)

theorem Freeable.apart (h : m.Freeable d lo hi) (ht : m.Tree d) :
    ∀ g, m.MapsIn d lo hi g → ¬ m.PartOf d g := by
  rintro g ⟨n, hlo, hhi, hp, rfl⟩ hpart
  have := h.data n hlo hhi hp
  simp [(ht.part hpart).2] at this

end Mem

/-- **One iteration of `deallocuvm`**: the page mapped at the virtual page `n` was put on the free
list, and its entry cleared. -/
structure Cleared (d n : Nat) (m m' : Mem) : Prop where
  tree : m'.Tree d
  dir : m'.page d = m.page d
  pte : ∀ k, m'.pte d k = if k = n then .zero else m.pte d k
  freed : (m'.page (m.pte d n).ppn).isFree
  kept : ∀ g, ¬ m.PartOf d g → g ≠ (m.pte d n).ppn → m'.page g = m.page g
  freelist : m'.freelist = (m.pte d n).ppn :: m.freelist

theorem cleared_of_release {d n : Nat} {m : Mem} (ht : m.Tree d) (hp : (m.pte d n).p)
    (hpart : ¬ m.PartOf d (m.pte d n).ppn) :
    Cleared d n m
      ((m.release (m.pte d n).ppn).setEntry (m.pde d (n / 1024)).ppn (n % 1024) .zero) := by
  set f := (m.pte d n).ppn with hfdef
  have hpde : (m.pde d (n / 1024)).p := by
    by_contra hnot
    simp [Mem.pte_of_not_pde (by simpa using hnot)] at hp
  have hs := ht.release hpart
  obtain ⟨hb, hpde'', hpte''⟩ := hs.tree.setPte (i := n / 1024) (j := n % 1024) (e := .zero)
    (by rwa [hs.pde]) (t := (m.pde d (n / 1024)).ppn) (by rw [hs.pde])
  have htab : m.PartOf d (m.pde d (n / 1024)).ppn := .inr ⟨_, hpde, rfl⟩
  have htabne : d ≠ (m.pde d (n / 1024)).ppn := by
    intro heq
    obtain ⟨es, hes⟩ := ht.table _ hpde
    have hdir := ht.dir
    rw [heq, hes] at hdir
    exact Bool.false_ne_true hdir
  refine ⟨hb.tree, ?_, fun k => ?_, ?_, fun g hg hgf => ?_, rfl⟩
  · simp [put_of_ne htabne, put_of_ne (hs.ne d (.inl rfl))]
  · simp only [hpte'', hs.pte, page_split]
  · rw [← hfdef]
    simp [put_of_ne (hs.ne _ htab).symm, Page.isFree]
  · have hgt : g ≠ (m.pde d (n / 1024)).ppn := by
      rintro rfl
      exact hg htab
    rw [← hfdef] at hgf
    simp [put_of_ne hgt, put_of_ne hgf]

/-- **The pages `lo, …, hi - 1` of `d` were put on the free list**, whether or not they are mapped
elsewhere or were free already. The free list stays in order if they can be freed. -/
structure Swept (d lo hi : Nat) (m m' : Mem) : Prop where
  tree : m'.Tree d
  dir : m'.page d = m.page d
  inside : ∀ n, lo ≤ n → n < hi → (m'.pte d n).p = false
  outside : ∀ n, ¬ (lo ≤ n ∧ n < hi) → m'.pte d n = m.pte d n
  freed : ∀ g, m.MapsIn d lo hi g → (m'.page g).isFree
  kept : ∀ g, ¬ m.PartOf d g → ¬ m.MapsIn d lo hi g → m'.page g = m.page g
  freelist : m'.freelist = (m.mapped d lo hi).reverse ++ m.freelist
  order : m.FreeOk → m.Freeable d lo hi → m'.FreeOk

namespace Swept

variable {d lo mid hi : Nat} {m m' m'' : Mem}

theorem pde (h : Swept d lo hi m m') (i : Nat) : m'.pde d i = m.pde d i := by
  rw [Mem.pde, Mem.pde, h.dir]

theorem part (h : Swept d lo hi m m') (g : Frame) : m'.PartOf d g ↔ m.PartOf d g := by
  simp only [Mem.PartOf, h.pde]

theorem nil (ht : m.Tree d) (h : hi ≤ lo) : Swept d lo hi m m := by
  have hnot : ∀ g, ¬ m.MapsIn d lo hi g := by
    rintro g ⟨n, hlo, hhi, -⟩
    omega
  exact ⟨ht, rfl, fun n hlo hhi => by omega, fun _ _ => rfl, fun g hg => absurd hg (hnot g),
    fun _ _ _ => rfl, by simp [Mem.mapped, List.Ico.eq_nil_of_le h], fun h _ => h⟩

theorem skip (h : Swept d mid hi m m') (hle : lo ≤ mid)
    (hnot : ∀ n, lo ≤ n → n < mid → (m.pte d n).p = false) : Swept d lo hi m m' := by
  have hlist : m.mapped d lo hi = m.mapped d mid hi := by
    rcases le_total mid hi with hmid | hmid
    · have hnil : (List.Ico lo mid).filter (fun n => (m.pte d n).p) = [] := by
        simpa [List.filter_eq_nil_iff] using hnot
      rw [Mem.mapped, ← List.Ico.append_consecutive hle hmid, List.filter_append, hnil,
        List.nil_append]
      rfl
    · have hnil : (List.Ico lo hi).filter (fun n => (m.pte d n).p) = [] := by
        simpa [List.filter_eq_nil_iff] using fun n hlo hhi => hnot n hlo (hhi.trans_le hmid)
      rw [Mem.mapped, Mem.mapped, hnil, List.Ico.eq_nil_of_le hmid]
      rfl
  have hmaps : ∀ g, m.MapsIn d lo hi g ↔ m.MapsIn d mid hi g := fun g => by
    rw [← Mem.mem_mapped, hlist, Mem.mem_mapped]
  refine ⟨h.tree, h.dir, fun n hlo hhi => ?_, fun n hn => h.outside n (by omega),
    fun g hg => h.freed g ((hmaps g).1 hg), fun g hg hmap => h.kept g hg (mt (hmaps g).2 hmap),
    by rw [hlist, h.freelist], fun hf hfree => h.order hf (hfree.mono hle)⟩
  by_cases hn : mid ≤ n
  · exact h.inside n hn hhi
  · rw [h.outside n (by omega)]
    exact hnot n hlo (by omega)

theorem one {n : Nat} (hc : Cleared d n m m') (hp : (m.pte d n).p)
    (horder : m.FreeOk → (m.page (m.pte d n).ppn).isData → m'.FreeOk) :
    Swept d n (n + 1) m m' := by
  have hmaps : ∀ g, m.MapsIn d n (n + 1) g ↔ g = (m.pte d n).ppn := by
    refine fun g => ⟨?_, fun h => ⟨n, le_rfl, n.lt_succ_self, hp, h.symm⟩⟩
    rintro ⟨k, hk, hk', -, rfl⟩
    obtain rfl : k = n := by omega
    rfl
  refine ⟨hc.tree, hc.dir, fun k hk hk' => ?_, fun k hk => ?_, fun g hg => ?_, fun g hg hmap => ?_,
    by simp [Mem.mapped, hp, hc.freelist], fun hf hfree =>
      horder hf (hfree.data n le_rfl n.lt_succ_self hp)⟩
  · rw [hc.pte, if_pos (by omega), Pte.zero_p]
  · rw [hc.pte, if_neg (by omega)]
  · obtain rfl := (hmaps g).1 hg
    exact hc.freed
  · exact hc.kept g hg (mt (hmaps g).2 hmap)

section

variable (h : Swept d lo mid m m')

include h

theorem mapped (hle : lo ≤ mid) (hle' : mid ≤ hi) :
    m.mapped d lo hi = m.mapped d lo mid ++ m'.mapped d mid hi := by
  have hpte : ∀ n ∈ List.Ico mid hi, m'.pte d n = m.pte d n := fun n hn =>
    h.outside n (by have := List.Ico.mem.1 hn; omega)
  have hrest : m'.mapped d mid hi = m.mapped d mid hi := by
    unfold Mem.mapped
    rw [List.filter_congr fun n hn => by rw [hpte n hn]]
    exact List.map_congr_left fun n hn => by rw [hpte n (List.mem_of_mem_filter hn)]
  rw [hrest]
  simp only [Mem.mapped, ← List.map_append, ← List.filter_append,
    List.Ico.append_consecutive hle hle']

theorem mapsIn (hle : lo ≤ mid) (hle' : mid ≤ hi) (g : Frame) :
    m.MapsIn d lo hi g ↔ m.MapsIn d lo mid g ∨ m'.MapsIn d mid hi g := by
  simp only [← Mem.mem_mapped, h.mapped hle hle', List.mem_append]

theorem freeable (hfree : m.Freeable d lo hi) (ht : m.Tree d)
    (hle : lo ≤ mid) (hle' : mid ≤ hi) : m'.Freeable d mid hi := by
  have hpte : ∀ n, mid ≤ n → m'.pte d n = m.pte d n := fun n hn => h.outside n (by omega)
  refine ⟨fun n hn hn' hp => ?_, fun n k hn hn' hk hk' hp hp' heq => ?_⟩
  · rw [hpte n hn] at hp ⊢
    have hd := hfree.data n (hle.trans hn) hn' hp
    rw [h.kept _ (fun hg => by simp [(ht.part hg).2] at hd)]
    · exact hd
    · rintro ⟨k, hk, hk', hpk, heq⟩
      have := hfree.inj n k (hle.trans hn) hn' hk (hk'.trans_le hle') hp hpk heq.symm
      omega
  · rw [hpte n hn] at hp heq
    rw [hpte k hk] at hp' heq
    exact hfree.inj n k (hle.trans hn) hn' (hle.trans hk) hk' hp hp' heq

theorem trans (h' : Swept d mid hi m' m'') (ht : m.Tree d)
    (hle : lo ≤ mid) (hle' : mid ≤ hi) : Swept d lo hi m m'' := by
  refine ⟨h'.tree, h'.dir.trans h.dir, fun n hlo hhi => ?_, fun n hn => ?_, fun g hg => ?_,
    fun g hg hmap => ?_, ?_, fun hf hfree => ?_⟩
  · by_cases hn : mid ≤ n
    · exact h'.inside n hn hhi
    · rw [h'.outside n (by omega)]
      exact h.inside n hlo (by omega)
  · rw [h'.outside n (by omega), h.outside n (by omega)]
  · by_cases hmap : m'.MapsIn d mid hi g
    · exact h'.freed g hmap
    · -- freed in the first range, and not mapped in the other one
      have hgf := h.freed g (((h.mapsIn hle hle' g).1 hg).resolve_right hmap)
      rw [h'.kept g (fun hpart => ?_) hmap]
      · exact hgf
      · simp [(h.tree.part hpart).1] at hgf
  · rw [h.mapsIn hle hle', not_or] at hmap
    rw [h'.kept g (mt (h.part g).1 hg) hmap.2, h.kept g hg hmap.1]
  · rw [h'.freelist, h.freelist, h.mapped hle hle', List.reverse_append, List.append_assoc]
  · exact h'.order (h.order hf (hfree.restrict hle')) (h.freeable hfree ht hle hle')

end

end Swept

/-- **The pages `lo, …, hi - 1` of `d` were deallocated**, and the free list is in order. -/
structure Dealloc (d lo hi : Nat) (m m' : Mem) : Prop extends Swept d lo hi m m' where
  free : m'.FreeOk

/-! ## The loops -/

theorem lt_pagesIn {sz n : Nat} : n < pagesIn sz ↔ n * PGSIZE < sz := by
  unfold pagesIn PGSIZE
  omega

section

variable {strict : Prop} {m : Mem} {d : Frame} {C : Stop → Mem → Prop}

/-- **The loop of `deallocuvm`** from the virtual page `n` on. -/
theorem deallocLoop_spec {oldsz n : Nat} (fuel : Nat) (hfuel : pagesIn oldsz ≤ n + fuel)
    (ht : m.Tree d) (hmaps : ∀ g, m.MapsIn d n (pagesIn oldsz) g →
      ¬ m.PartOf d g ∧ L.Gives C g) :
    Ends (deallocLoop L d oldsz fuel (n * PGSIZE)) m
      (fun _ m' => Swept d n (pagesIn oldsz) m m') C := by
  induction fuel generalizing n m with
  | zero => exact .nil ht (by omega)
  | succ fuel ih =>
    rw [deallocLoop]
    have hlater : ∀ {n'}, n ≤ n' → ∀ g, m.MapsIn d n' (pagesIn oldsz) g → ¬ m.PartOf d g ∧
        L.Gives C g := by
      rintro n' hle g ⟨k, hk, h⟩
      exact hmaps g ⟨k, hle.trans hk, h⟩
    by_cases hn : n < pagesIn oldsz
    · have hlt : n * PGSIZE < oldsz := lt_pagesIn.1 hn
      simp only [hlt, if_true, ends_bind]
      refine walk_ends (.inl ht.dir_entries) ?_
      by_cases hp : (m.pde d (pdx (n * PGSIZE))).p
      · simp only [hp, if_true, ends_bind]
        refine readPte_ends hp (.inl (ht.entries hp)) ?_
        simp only [Nat.mul_div_cancel n (show 0 < PGSIZE by decide)]
        have hnext : n * PGSIZE + PGSIZE = (n + 1) * PGSIZE := (Nat.succ_mul n PGSIZE).symm
        by_cases hpte : (m.pte d n).p
        · simp only [hpte, if_true, ends_bind, ends_stopIf]
          obtain ⟨hapart, hgives⟩ := hmaps _ ⟨n, le_rfl, hn, hpte, rfl⟩
          refine ⟨fun hz => hgives.elim (fun hL => absurd (by simpa using hz) hL.1)
            fun hC => (hC m).2, fun _ => kfree_gives L hgives ?_⟩
          simp only [writePte, ends_modify, pdx_page, ptx_page, hnext]
          -- one page is given back, and the rest is as it was
          have h1 := Swept.one (cleared_of_release ht hpte hapart) hpte fun hf hd =>
            (hf.release (Page.isFree_of_isData hd)).setEntry _ _ _
          refine (ih (by omega) h1.tree fun g hg => ?_).imp
            fun _ m' h => h1.trans h ht (by omega) (by omega)
          rw [h1.part]
          exact hmaps g ((h1.mapsIn (by omega) (by omega) g).2 (.inr hg))
        · simp only [hpte, Bool.false_eq_true, if_false, hnext]
          refine (ih (by omega) ht (hlater (by omega))).imp
            fun _ m' h => h.skip (by omega) fun k hk hk' => ?_
          obtain rfl : k = n := by omega
          simpa using hpte
      · rw [if_neg hp]
        simp only [pdx_page] at hp ⊢
        have hle : n ≤ (n / 1024 + 1) * 1024 := by omega
        refine (ih (by omega) ht (hlater hle)).imp
          fun _ m' h => h.skip hle fun k hk hk' => ?_
        -- all these pages would be in the missing page table
        have hk : k / 1024 = n / 1024 := by omega
        rw [Mem.pte_of_not_pde (by rw [hk]; simpa using hp), Pte.zero_p]
    · have hlt : ¬ n * PGSIZE < oldsz := mt lt_pagesIn.2 hn
      simp only [hlt, if_false, ends_pure]
      exact .nil ht (by omega)

/-- **`deallocuvm`**, for pages that are no part of the directory. -/
theorem deallocuvm_swept (oldsz newsz : Nat) (ht : m.Tree d)
    (hmaps : newsz < oldsz → ∀ g, m.MapsIn d (pgRoundUp newsz / PGSIZE) (pagesIn oldsz) g →
      ¬ m.PartOf d g ∧ L.Gives C g) :
    Ends (deallocuvm L d oldsz newsz) m
      (fun r m' => (oldsz ≤ newsz → r = oldsz ∧ m' = m) ∧
        (newsz < oldsz → r = newsz ∧ Swept d (pgRoundUp newsz / PGSIZE) (pagesIn oldsz) m m'))
      C := by
  rw [deallocuvm]
  by_cases hle : oldsz ≤ newsz
  · simp [hle]
  · simp only [hle, if_false, ends_bind]
    have haligned : pgRoundUp newsz / PGSIZE * PGSIZE = pgRoundUp newsz := by
      simp [pgRoundUp, pgRoundDown]
    have hloop := deallocLoop_spec L (pagesIn oldsz) (Nat.le_add_left _ _) ht (hmaps (by omega))
    rw [haligned] at hloop
    refine hloop.imp (fun _ m' h => ?_)
    exact ⟨fun h => h.elim, fun _ => ⟨rfl, h⟩⟩

theorem deallocuvm_spec (oldsz newsz : Nat) (hf : m.FreeOk) (ht : m.Tree d)
    (hfree : newsz < oldsz → m.Freeable d (pgRoundUp newsz / PGSIZE) (pagesIn oldsz))
    (hL : newsz < oldsz → ∀ g, m.MapsIn d (pgRoundUp newsz / PGSIZE) (pagesIn oldsz) g →
      L.Gives C g) :
    Ends (deallocuvm L d oldsz newsz) m
      (fun r m' => (oldsz ≤ newsz → r = oldsz ∧ m' = m) ∧
        (newsz < oldsz → r = newsz ∧ Dealloc d (pgRoundUp newsz / PGSIZE) (pagesIn oldsz) m m'))
      C := by
  refine (deallocuvm_swept L oldsz newsz ht fun hlt g hg =>
    ⟨(hfree hlt).apart ht g hg, hL hlt g hg⟩).imp ?_
  rintro r m' ⟨hge, hlt⟩
  refine ⟨hge, fun h => ?_⟩
  obtain ⟨hr, hswept⟩ := hlt h
  exact ⟨hr, hswept, hswept.order hf (hfree h)⟩

end

/-- The page `g` is the page table of one of the entries `lo, …, hi - 1` of `d`. -/
def Mem.TableIn (m : Mem) (d lo hi : Nat) (g : Frame) : Prop :=
  ∃ i, lo ≤ i ∧ i < hi ∧ (m.pde d i).p ∧ (m.pde d i).ppn = g

section

variable {strict : Prop} {m : Mem} {d : Frame}

theorem Mem.Tree.not_tableIn_self (ht : m.Tree d) {lo hi : Nat} : ¬ m.TableIn d lo hi d := by
  rintro ⟨i, -, -, hp, heq⟩
  obtain ⟨es, hes⟩ := ht.table i hp
  have hdir := ht.dir
  rw [← heq, hes] at hdir
  exact Bool.false_ne_true hdir

/-- **The page tables of `d` from the entry `lo` on were freed**, and no other page has changed. -/
structure TablesFreed (d lo hi : Nat) (m m' : Mem) : Prop where
  order : m.FreeOk → m'.FreeOk
  freelist : ∀ g, g ∈ m'.freelist ↔ g ∈ m.freelist ∨ m.TableIn d lo hi g
  freed : ∀ g, m.TableIn d lo hi g → (m'.page g).isFree
  kept : ∀ g, ¬ m.TableIn d lo hi g → m'.page g = m.page g

theorem freeTables_spec {lo : Nat} (ht : m.Tree d) :
    Ends (freeTables L d lo) m (fun _ m' => TablesFreed d lo NPDENTRIES m m')
      (Calm True strict) := by
  -- the invariant: the page tables before the entry `k` are freed
  refine ends_forM (fun k s => TablesFreed d lo k m s)
    ⟨fun h => h, fun g => ?_, ?_, fun _ _ => rfl⟩ ?_ ?_
  · refine ⟨.inl, fun h => h.resolve_right ?_⟩
    rintro ⟨i, hi, hi', -⟩
    omega
  · rintro g ⟨i, hi, hi', -⟩
    omega
  · rintro k hk - s ⟨hok, hlist, hfreed, hkept⟩
    have hd : s.page d = m.page d := hkept d ht.not_tableIn_self
    simp only [ends_bind]
    refine entriesOf_ends' (.inl (by rw [hd]; exact ht.dir_entries)) ?_
    have hsucc : ∀ g, m.TableIn d lo (k + 1) g ↔
        m.TableIn d lo k g ∨ ((m.pde d k).p ∧ (m.pde d k).ppn = g) := by
      intro g
      constructor
      · rintro ⟨i, hi, hi', hp, heq⟩
        rcases Nat.lt_succ_iff_lt_or_eq.1 hi' with hlt | rfl
        · exact .inl ⟨i, hi, hlt, hp, heq⟩
        · exact .inr ⟨hp, heq⟩
      · rintro (⟨i, hi, hi', hp, heq⟩ | ⟨hp, heq⟩)
        · exact ⟨i, hi, by omega, hp, heq⟩
        · exact ⟨k, hk, by omega, hp, heq⟩
    rw [hd]
    show Ends (onlyIf ((m.pde d k).p = true) (kfree L (m.pde d k).ppn)) s _ _
    rw [ends_onlyIf]
    refine ⟨fun hp => kfree_ends L ?_, fun hp => ?_⟩
    · obtain ⟨es, hes⟩ := ht.table k hp
      -- a page table belongs to one entry, so this one has not been freed yet
      have hnot : ¬ m.TableIn d lo k (m.pde d k).ppn := by
        rintro ⟨i, hi, hi', hpi, heq⟩
        obtain ⟨es', hes'⟩ := ht.table i hpi
        rw [heq, hes] at hes'
        injection hes' with _ h2
        omega
      refine ⟨fun h => (hok h).release ?_, fun g => ?_, fun g hg => ?_, fun g hg => ?_⟩
      · rw [hkept _ hnot, hes]
        rfl
      · rw [Mem.release_freelist, List.mem_cons, hlist, hsucc]
        simp only [hp, true_and, eq_comm (a := (m.pde d k).ppn)]
        tauto
      · by_cases hgk : g = (m.pde d k).ppn
        · simp [hgk, Page.isFree]
        · rw [Mem.release_page, put_of_ne hgk]
          rcases (hsucc g).1 hg with hg | ⟨-, hg⟩
          · exact hfreed g hg
          · exact absurd hg.symm hgk
      · rw [hsucc, not_or] at hg
        rw [Mem.release_page, put_of_ne, hkept g hg.1]
        rintro rfl
        exact hg.2 ⟨hp, rfl⟩
    · have hsame : ∀ g, m.TableIn d lo (k + 1) g ↔ m.TableIn d lo k g := fun g =>
        ⟨fun h => ((hsucc g).1 h).resolve_right fun h => hp h.1, fun h => (hsucc g).2 (.inl h)⟩
      exact ⟨hok, fun g => by rw [hlist, hsame], fun g hg => hfreed g ((hsame g).1 hg),
        fun g hg => hkept g (mt (hsame g).2 hg)⟩
  · rintro s ⟨hok, hlist, hfreed, hkept⟩
    -- the range is empty when it starts behind the last entry
    have hend : ∀ g, m.TableIn d lo (lo + (NPDENTRIES - lo)) g ↔ m.TableIn d lo NPDENTRIES g :=
      fun g => exists_congr fun i => and_congr_right fun hi => by
        rw [show i < lo + (NPDENTRIES - lo) ↔ i < NPDENTRIES by omega]
    simp only [hend] at hlist hfreed hkept
    exact ⟨hok, hlist, hfreed, hkept⟩

end

/-! ## Taking down a directory -/

/-- **The directory `d` was taken down**: with it the pages mapped from the virtual page `lo` on,
and its page tables from the entry `i0` on. -/
structure Torn (d lo i0 : Nat) (m m' : Mem) : Prop where
  free : m'.FreeOk
  freed : ∀ g, g = d ∨ m.MapsIn d lo UPAGES g ∨ m.TableIn d i0 NPDENTRIES g → (m'.page g).isFree
  kept : ∀ g, ¬ m.PartOf d g → ¬ m.MapsIn d lo UPAGES g → m'.page g = m.page g
  left : ∀ g, m.PartOf d g → g ≠ d → ¬ m.TableIn d i0 NPDENTRIES g →
    ∃ i es, m'.page g = .table d i es

/-- The first virtual page that `deallocuvm(d, KERNBASE, newsz)` looks at. -/
def firstPage (newsz : Nat) : Nat := if newsz < KERNBASE then pgRoundUp newsz / PGSIZE else UPAGES

section

variable {strict : Prop} {m : Mem} {d : Frame}

theorem Dealloc.torn {lo i0 : Nat} {m1 m2 : Mem} (h : Dealloc d lo UPAGES m m1)
    (htabs : TablesFreed d i0 NPDENTRIES m1 m2) : Torn d lo i0 m (m2.release d) := by
  have htab : ∀ g, m1.TableIn d i0 NPDENTRIES g ↔ m.TableIn d i0 NPDENTRIES g := fun g => by
    simp only [Mem.TableIn, h.pde]
  have hpart : ∀ g, m1.TableIn d i0 NPDENTRIES g → m1.PartOf d g :=
    fun g ⟨i, _, _, hp, hg⟩ => .inr ⟨i, hp, hg⟩
  have hd : ¬ m1.TableIn d i0 NPDENTRIES d := h.tree.not_tableIn_self
  have hdfree : (m2.page d).isFree = false := by
    rw [htabs.kept d hd]
    exact Page.isFree_of_isDir h.tree.dir
  refine ⟨(htabs.order h.free).release hdfree, fun g hg => ?_, fun g hg hmap => ?_,
    fun g hg hgd hnot => ?_⟩
  · by_cases hgd : g = d
    · simp [hgd, Page.isFree]
    · rw [Mem.release_page, put_of_ne hgd]
      rcases hg with hg | hg | hg
      · exact absurd hg hgd
      · -- a page that was freed before is no page table
        have hgf := h.freed g hg
        rw [htabs.kept g fun htab => ?_]
        · exact hgf
        · simp [(h.tree.part (hpart g htab)).1] at hgf
      · exact htabs.freed g ((htab g).2 hg)
  · have hgd : g ≠ d := fun heq => hg (.inl heq)
    rw [Mem.release_page, put_of_ne hgd, htabs.kept g fun htab => ?_, h.kept g hg hmap]
    exact hg ((h.part g).1 (hpart g htab))
  · rw [Mem.release_page, put_of_ne hgd, htabs.kept g fun htab' => hnot ((htab g).1 htab')]
    obtain ⟨i, hp, rfl⟩ := ((h.part g).2 hg).resolve_left hgd
    exact ⟨i, h.tree.table i hp⟩

/-- **What `freethread` does**, for pages that are no part of the directory: it sweeps the pages
from the page below `stackBeg` on, and frees the directory and its page tables from the entry on
whose number is that address in bytes. -/
theorem freethread_steps {stackBeg newsz : Nat} (hnew : newsz = uint32 ((stackBeg : Int) - PGSIZE))
    (ht : m.Tree d) (hapart : ∀ g, m.MapsIn d (firstPage newsz) UPAGES g → ¬ m.PartOf d g) :
    Ends (freethread L d stackBeg) m
      (fun _ m' => ∃ m1 m2, Swept d (firstPage newsz) UPAGES m m1 ∧
        TablesFreed d (min newsz KERNBASE) NPDENTRIES m1 m2 ∧ m' = m2.release d)
      (Calm True strict) := by
  subst hnew
  set newsz := uint32 ((stackBeg : Int) - PGSIZE)
  have hpages : pagesIn KERNBASE = UPAGES := rfl
  rw [freethread, ends_bind]
  refine (deallocuvm_swept L KERNBASE newsz ht fun hlt g hg => ⟨hapart g ?_, L.gives_calm⟩).imp ?_
  · rwa [hpages, ← show firstPage newsz = pgRoundUp newsz / PGSIZE from if_pos hlt] at hg
  rintro r m1 ⟨hge, hlt⟩
  have hr : r = min newsz KERNBASE ∧ Swept d (firstPage newsz) UPAGES m m1 := by
    rcases Nat.lt_or_ge newsz KERNBASE with hlt' | hge'
    · obtain ⟨hr, h⟩ := hlt hlt'
      rw [hpages, ← show firstPage newsz = pgRoundUp newsz / PGSIZE from if_pos hlt'] at h
      exact ⟨hr.trans (Nat.min_eq_left hlt'.le).symm, h⟩
    · obtain ⟨rfl, rfl⟩ := hge hge'
      refine ⟨(Nat.min_eq_right hge').symm, ?_⟩
      rw [show firstPage newsz = UPAGES from if_neg (not_lt.2 hge')]
      exact .nil ht le_rfl
  obtain ⟨rfl, h⟩ := hr
  rw [ends_bind]
  refine (freeTables_spec L h.tree).imp (fun _ m2 htabs => ?_)
  exact kfree_ends L ⟨m1, m2, h, htabs, rfl⟩

/-- **`freevm`** frees every page mapped in the user half, the page tables and the directory. -/
theorem freevm_spec (hf : m.FreeOk) (ht : m.Tree d) (hfree : m.Freeable d 0 UPAGES) :
    Ends (freevm L d) m (fun _ m' => Torn d 0 0 m m') (Calm True strict) := by
  rw [freevm, ends_bind]
  -- unlike `freethread`, the loop over the page tables does not use what `deallocuvm` returns
  refine (deallocuvm_spec L KERNBASE 0 hf ht (fun _ => hfree) fun _ _ _ => L.gives_calm).imp ?_
  rintro r m1 ⟨-, hlt⟩
  obtain ⟨rfl, h1⟩ := hlt (by decide)
  rw [ends_bind]
  refine (freeTables_spec L h1.tree).imp (fun _ m2 htabs => ?_)
  exact kfree_ends L (h1.torn htabs)

theorem freethread_spec {stackBeg newsz : Nat} (hnew : newsz = uint32 ((stackBeg : Int) - PGSIZE))
    (hf : m.FreeOk) (ht : m.Tree d) (hfree : m.Freeable d (firstPage newsz) UPAGES) :
    Ends (freethread L d stackBeg) m
      (fun _ m' => Torn d (firstPage newsz) (min newsz KERNBASE) m m') (Calm True strict) := by
  refine (freethread_steps L hnew ht (hfree.apart ht)).imp ?_
  rintro _ m' ⟨m1, m2, hswept, htabs, rfl⟩
  exact Dealloc.torn ⟨hswept, hswept.order hf hfree⟩ htabs

end

end Xv6.Memory
