import Xv6.Memory.Growth

/-! # New address spaces with pages of their own

`fork`, `exec` and `userinit` fill a new page directory with pages they have just taken. `Filled`
says so: every page mapped in the user half was free when the building began, and is mapped once. A
directory of this kind can be given up at any time (`Filled.freevm_spec`).

* **`copyuvm_spec`** — `fork`'s copy of an address space.
* **`execImage_spec`** — the image that `exec` loads: every page below its size is mapped
  (`Loaded`). -/

namespace Xv6.Memory

open Foundation

variable (L : Layout)

/-! ## Directories filled with their own pages -/

/-- **The directory `d`, built since `m0`, maps pages of its own only.** -/
structure Filled (d : Frame) (m0 m : Mem) : Prop extends Building d m0 m where
  free : m.FreeOk
  own : ∀ n < UPAGES, (m.pte d n).p →
    (m0.page (m.pte d n).ppn).isFree ∧ (m.page (m.pte d n).ppn).isData
  inj : ∀ n < UPAGES, ∀ k < UPAGES, (m.pte d n).p → (m.pte d k).p →
    (m.pte d n).ppn = (m.pte d k).ppn → n = k
  kernel : ∀ n, UPAGES ≤ n → m.pte d n = kernelPte L n

namespace Filled

variable {L} {strict : Prop} {d f lo k hi : Nat} {m0 m m' : Mem}

theorem of_fresh (h : Fresh L d m0 m) (hm : m.FreeOk) : Filled L d m0 m where
  toBuilding := h.toBuilding
  free := hm
  own n hn hp := by
    rw [h.pte, kernelPte_user L hn] at hp
    cases hp
  inj n hn _ _ hp := by
    rw [h.pte, kernelPte_user L hn] at hp
    cases hp
  kernel n _ := h.pte n

section

variable (h : Filled L d m0 m)

include h

theorem data (hd : DataOnly m m') : Filled L d m0 m' where
  toBuilding := h.toBuilding.data hd
  free := hd.freeOk h.free
  own n hn hp := by
    rw [hd.pte] at hp ⊢
    rw [(hd.page _).isData]
    exact h.own n hn hp
  inj n hn k hk := by
    rw [hd.pte, hd.pte]
    exact h.inj n hn k hk
  kernel n hn := by rw [hd.pte, h.kernel n hn]

theorem freeable (hhi : hi ≤ UPAGES) : m.Freeable d lo hi where
  data n _ hn hp := (h.own n (by omega) hp).2
  inj n k _ hn _ hk hp hp' heq := h.inj n (by omega) k (by omega) hp hp' heq

theorem freevm_spec :
    Ends (freevm L d) m (fun _ m' => Restored m0 m') (Calm True strict) := by
  refine (Memory.freevm_spec L h.free h.tree (h.freeable le_rfl)).imp ?_
  intro _ m' ht
  refine h.restored ht ?_
  rintro g ⟨n, -, hn, hp, rfl⟩
  exact (h.own n hn hp).1

theorem ne_of_free (hf : (m.page f).isFree) {n : Nat} (hn : n < UPAGES)
    (hp : (m.pte d n).p) : (m.pte d n).ppn ≠ f := by
  rintro rfl
  have := (h.own n hn hp).2
  simp [Page.isData_of_isFree hf] at this

theorem change (hf : (m0.page f).isFree)
    (hnot : ∀ n < UPAGES, (m.pte d n).p → (m.pte d n).ppn ≠ f) (hs : Swaps d f m m')
    (hx : (m'.page f).isDir = false) (hm : m'.FreeOk) : Filled L d m0 m' := by
  refine ⟨h.toBuilding.change hf hs hx, hm, fun n hn hp => ?_, fun n hn k hk => ?_,
    fun n hn => ?_⟩
  · rw [hs.pte] at hp ⊢
    rw [hs.page _ (hnot n hn hp)]
    exact h.own n hn hp
  · rw [hs.pte, hs.pte]
    exact h.inj n hn k hk
  · rw [hs.pte, h.kernel n hn]

theorem grant {fs : List Frame} (hl : m.freelist = f :: fs)
    (hf : (m.page f).isFree) : Filled L d m0 (m.asked.grant f) := by
  exact h.change (h.shrinks f hf) (fun n => h.ne_of_free hf) (h.tree.grant hf)
      (by simp [Page.isDir])
    (h.free.grant hl)

theorem release (hf : (m0.page f).isFree) (hd : (m.page f).isData)
    (hnot : ∀ n < UPAGES, (m.pte d n).p → (m.pte d n).ppn ≠ f) : Filled L d m0 (m.release f) := by
  refine h.change hf hnot (h.tree.release fun hpart => ?_) (by simp [Page.isDir])
    (h.free.release (Page.isFree_of_isData hd))
  simp [(h.tree.part hpart).2] at hd

theorem map (hb : Builds d m m') (hm : m'.FreeOk) {e : Pte} (hk : k < UPAGES)
    (hf : (m0.page e.ppn).isFree) (hd : (m.page e.ppn).isData)
    (hnot : ∀ n < UPAGES, n ≠ k → (m.pte d n).p → (m.pte d n).ppn ≠ e.ppn)
    (hpte : ∀ n, m'.pte d n = if n = k then e else m.pte d n) : Filled L d m0 m' := by
  have hdata : ∀ {g}, (m.page g).isData → (m'.page g).isData := hb.works.old_data h.tree
  have hself : m'.pte d k = e := by rw [hpte, if_pos rfl]
  have hother : ∀ n ≠ k, m'.pte d n = m.pte d n := fun n hn => by rw [hpte, if_neg hn]
  refine ⟨h.toBuilding.builds hb, hm, fun n hn hp => ?_, fun n hn n' hn' hp hp' heq => ?_,
    fun n hn => ?_⟩
  · by_cases hnk : n = k
    · subst hnk
      rw [hself]
      exact ⟨hf, hdata hd⟩
    · rw [hother n hnk] at hp ⊢
      exact ⟨(h.own n hn hp).1, hdata (h.own n hn hp).2⟩
  · by_cases hnk : n = k <;> by_cases hnk' : n' = k
    · rw [hnk, hnk']
    · rw [hnk, hself, hother n' hnk'] at heq
      rw [hother n' hnk'] at hp'
      exact absurd heq.symm (hnot n' hn' hnk' hp')
    · rw [hnk', hself, hother n hnk] at heq
      rw [hother n hnk] at hp
      exact absurd heq (hnot n hn hnk hp)
    · rw [hother n hnk] at hp heq
      rw [hother n' hnk'] at hp' heq
      exact h.inj n hn n' hn' hp hp' heq
  · rw [hother n (by omega), h.kernel n hn]

theorem grown (hg : Grown d lo k m m') (hm : m'.FreeOk) (hk : k ≤ UPAGES) :
    Filled L d m0 m' := by
  have hdata : ∀ {g}, (m.page g).isData → (m'.page g).isData := hg.works.old_data h.tree
  -- a mapped page is a new one, or it is mapped as before
  have hcases : ∀ n < UPAGES, (m'.pte d n).p →
      (lo ≤ n ∧ n < k ∧ (m.page (m'.pte d n).ppn).isFree ∧ (m'.page (m'.pte d n).ppn).isData) ∨
      (m'.pte d n = m.pte d n ∧ (m.pte d n).p) := by
    intro n hn hp
    by_cases hin : lo ≤ n ∧ n < k
    · obtain ⟨f, hf, hfree, hd⟩ := hg.new n hin.1 hin.2
      exact .inl ⟨hin.1, hin.2, by rw [hf]; exact ⟨hfree, hd⟩⟩
    · have hold := hg.old n hin
      rw [hold] at hp
      exact .inr ⟨hold, hp⟩
  refine ⟨⟨hg.works.tree, fun g hp => ?_, ?_, fun g hf => ?_, fun g hd => ?_⟩, hm,
    fun n hn hp => ?_, fun n hn n' hn' hp hp' heq => ?_, fun n hn => ?_⟩
  · rcases hg.works.parts g hp with hp | hf
    · exact h.fresh g hp
    · exact h.shrinks g hf
  · exact h.keeps.trans hg.works.keeps fun g hp => .inr (h.fresh g hp)
  · exact h.shrinks g (hg.works.shrinks g hf)
  · exact h.dirs g (hg.works.dirs g hd)
  · rcases hcases n hn hp with ⟨-, -, hf, hd⟩ | ⟨ho, hp⟩
    · exact ⟨h.shrinks _ hf, hd⟩
    · rw [ho]
      exact ⟨(h.own n hn hp).1, hdata (h.own n hn hp).2⟩
  · rcases hcases n hn hp with ⟨hlo, hk, hf, -⟩ | ⟨ho, hp⟩ <;>
      rcases hcases n' hn' hp' with ⟨hlo', hk', hf', -⟩ | ⟨ho', hp'⟩
    · exact hg.inj n n' hlo hk hlo' hk' heq
    · rw [ho'] at heq
      exact absurd heq.symm (h.ne_of_free hf hn' hp')
    · rw [ho] at heq
      exact absurd heq (h.ne_of_free hf' hn hp)
    · rw [ho, ho'] at heq
      exact h.inj n hn n' hn' hp hp' heq
  · rw [hg.old n (by omega), h.kernel n hn]

theorem emptied (he : Emptied d lo hi m m') (hhi : hi ≤ UPAGES) :
    Filled L d m0 m' := by
  have hmaps : ∀ g, m.MapsIn d lo hi g → (m0.page g).isFree := by
    rintro g ⟨n, -, hn, hp, rfl⟩
    exact (h.own n (by omega) hp).1
  have hout : ∀ n, (m'.pte d n).p → m'.pte d n = m.pte d n ∧ ¬ (lo ≤ n ∧ n < hi) := by
    intro n hp
    have hn : ¬ (lo ≤ n ∧ n < hi) := fun hn => by
      simp [he.inside n hn.1 hn.2] at hp
    exact ⟨he.outside n hn, hn⟩
  refine ⟨⟨he.tree, fun g hp => ?_, ?_, fun g hf => ?_, fun g hd => h.dirs g (he.dirs g hd)⟩,
    he.free, fun n hn hp => ?_, fun n hn n' hn' hp hp' => ?_, fun n hn => ?_⟩
  · rcases he.parts g hp with hp | hf
    · exact h.fresh g hp
    · exact h.shrinks g hf
  · refine h.keeps.trans he.keeps fun g hS => .inr ?_
    rcases hS with hp | hm
    · exact h.fresh g hp
    · exact hmaps g hm
  · rcases he.freed g hf with hf | hm
    · exact h.shrinks g hf
    · exact hmaps g hm
  · obtain ⟨ho, hin⟩ := hout n hp
    rw [ho] at hp ⊢
    obtain ⟨hf, hd⟩ := h.own n hn hp
    refine ⟨hf, (he.keeps _ (Page.isFree_of_isData hd) ?_).isData.trans hd⟩
    -- it is no part of the directory, and mapped nowhere in the range
    rintro (hpart | ⟨k, hlo, hk, hpk, heq⟩)
    · simp [(h.tree.part hpart).2] at hd
    · obtain rfl := h.inj k (by omega) n hn hpk hp heq
      exact hin ⟨hlo, hk⟩
  · have ho := (hout n hp).1
    have ho' := (hout n' hp').1
    rw [ho] at hp ⊢
    rw [ho'] at hp' ⊢
    exact h.inj n hn n' hn' hp hp'
  · rw [he.outside n (by omega), h.kernel n hn]

end

end Filled

/-- **The first `k` pages, and no others, are mapped.** -/
structure Image (k : Nat) (d : Frame) (m0 m : Mem) : Prop extends Filled L d m0 m where
  bound : k ≤ UPAGES
  below : ∀ n < k, (m.pte d n).p
  above : ∀ n, k ≤ n → n < UPAGES → (m.pte d n).p = false

namespace Image

variable {L} {d f k : Nat} {m0 m m' : Mem}

theorem of_fresh (h : Fresh L d m0 m) (hm : m.FreeOk) : Image L 0 d m0 m where
  toFilled := .of_fresh h hm
  bound := Nat.zero_le _
  below n hn := absurd hn (Nat.not_lt_zero n)
  above n _ hn := by rw [h.pte, kernelPte_user L hn, Pte.zero_p]

theorem data (h : Image L k d m0 m) (hd : DataOnly m m') : Image L k d m0 m' where
  toFilled := h.toFilled.data hd
  bound := h.bound
  below n hn := by
    rw [hd.pte]
    exact h.below n hn
  above n hn hn' := by
    rw [hd.pte]
    exact h.above n hn hn'

end Image

/-! ## `fork` -/

section

variable {strict : Prop} {pgdir sz k : Nat} {d : Frame} {m0 m : Mem}

theorem copyPage_spec {mem pa : Nat} (hmem : (m.page mem).isData) :
    Ends (copyPage pgdir mem pa) m (fun _ m' => DataOnly m m') (Calm True strict) := by
  simp only [copyPage, ends_bind, ends_get]
  split
  · exact calm_fault _ _ m
  · exact DataOnly.setPage hmem _

/-- **One iteration of `copyuvm`**: a result is `goto bad`. -/
theorem copyAt_spec (h : Image L k d m0 m) (ht : m0.Tree pgdir)
    (hpres : strict → k < UPAGES ∧ (m0.pte pgdir k).p) :
    Ends (copyAt L pgdir d k) m
      (fun r m' => (r = none → Image L (k + 1) d m0 m') ∧ (r ≠ none → Filled L d m0 m'))
      (Calm True strict) := by
  have hdiv : k * PGSIZE / PGSIZE = k := Nat.mul_div_cancel k (by decide)
  simp only [copyAt, ends_bind]
  refine presentPte_ends (fun _ => h.old_tree ht) (fun _ hst => ?_) fun hp => ?_
  · rw [h.old_pte ht]
    exact (hpres hst).2
  refine kalloc_ends (.inl h.free) ⟨by simp, fun _ => h.toFilled.data (.asked m)⟩
    fun f fs hl hf => ?_
  have hf0 := h.shrinks f hf
  have hg := h.toFilled.grant hl hf
  have hpte := (h.tree.grant hf).pte
  have hfd0 : ((m.asked.grant f).page f).isData := by simp [Page.isData]
  simp only [ends_bind]
  refine (copyPage_spec hfd0).imp (fun _ m1 hd => ?_)
  have hg1 := hg.data hd
  have hpte1 : ∀ n, m1.pte d n = m.pte d n := fun n => by rw [hd.pte, hpte]
  have hfd : (m1.page f).isData := (hd.page f).isData.trans hfd0
  have hnot : ∀ n < UPAGES, (m1.pte d n).p → (m1.pte d n).ppn ≠ f := fun n hn hp => by
    rw [hpte1] at hp ⊢
    exact h.toFilled.ne_of_free hf hn hp
  refine (mappages_spec hg1.tree (.inl hg1.free) (calm_panic_or fun _ hst => ?_) f _ _).imp ?_
  · rw [hdiv, hpte1]
    exact h.above k le_rfl (hpres hst).1
  rintro (_ | _) m' ⟨hfail, hsucc⟩
  · obtain ⟨rfl, -⟩ := hfail rfl
    simp only [Bool.false_eq_true, if_false, ends_bind]
    exact kfree_ends L ⟨by simp, fun _ => (hg1.data (.asked m1)).release hf0 hfd hnot⟩
  · obtain ⟨hb, hok, hnp, -, hpte'⟩ := hsucc rfl
    rw [hdiv, hpte1] at hnp
    rw [hdiv] at hpte'
    simp only [if_true, ends_pure]
    refine ⟨fun _ => ?_, by simp⟩
    -- the first page of the kernel half is there from the start
    have hk : k < UPAGES := by
      refine lt_of_le_of_ne h.bound ?_
      rintro rfl
      rw [h.kernel _ le_rfl, kernelPte_first] at hnp
      cases hnp
    refine ⟨hg1.map hb (hok hg1.free) hk hf0 hfd (fun n hn _ => hnot n hn) hpte', hk,
      fun n hn => ?_, fun n hn hn' => ?_⟩
    · rw [hpte']
      split
      · rfl
      · rw [hpte1]
        exact h.below n (by omega)
    · rw [hpte', if_neg (by omega), hpte1]
      exact h.above n (by omega) hn'

/-- **`copyuvm`** gives a new directory with pages of its own, or leaves the memory as it was. -/
theorem copyuvm_spec (hm : m0.FreeOk) (ht : m0.Tree pgdir)
    (hpres : strict → ∀ n < pagesIn sz, n < UPAGES ∧ (m0.pte pgdir n).p) :
    Ends (copyuvm L pgdir sz) m0
      (fun r m' => (r = none → Restored m0 m') ∧ ∀ d, r = some d → Image L (pagesIn sz) d m0 m')
      (Calm True strict) := by
  simp only [copyuvm, ends_bind]
  refine (setupkvm_spec L fun _ => hm).imp ?_
  rintro (_ | d) m1 ⟨hnone, hsome⟩
  · exact ⟨fun _ => hnone rfl trivial, by simp⟩
  obtain ⟨hfresh, hok⟩ := hsome d rfl
  simp only [ends_bind]
  refine ends_untilSome (fun k s => Image L k d m0 s) (.of_fresh hfresh (hok trivial))
    (fun k _ hk s h => ?_) fun s h => ?_
  · refine (copyAt_spec L h ht fun hst => hpres hst k (by omega)).imp ?_
    rintro (_ | _) s' ⟨hn, hs⟩
    · exact ⟨fun _ => hn rfl, by simp⟩
    · refine ⟨by simp, fun _ => ?_⟩
      -- out of memory: the directory is taken down again
      simp only [ends_bind]
      exact (hs (by simp)).freevm_spec.imp (fun _ _ h => ⟨fun _ => h, by simp⟩)
  · refine ⟨by simp, fun d' hd' => ?_⟩
    cases hd'
    rwa [Nat.zero_add] at h

end

/-! ## The first process -/

theorem inituvm_spec {strict : Prop} {d : Frame} {m0 m : Mem} {init : List UInt8}
    (h : Image L 0 d m0 m) :
    Ends (inituvm d init) m
      (fun _ m' => Filled L d m0 m' ∧ ∀ n ≠ 0, n < UPAGES → (m'.pte d n).p = false)
      (Calm True strict) := by
  have hnone : ∀ n < UPAGES, (m.pte d n).p = false := fun n => h.above n (Nat.zero_le n)
  simp only [inituvm, ends_bind, ends_stopIf]
  refine ⟨fun _ => calm_panic _ fun _ _ => by decide, fun _ => ?_⟩
  refine kalloc_ends (.inl h.free) (calm_fault _ _ m.asked) fun f fs hl hf => ?_
  have hg := (h.toFilled.grant hl hf).data zeroPage_grant
  have hpte : ∀ n, ((m.asked.grant f).setPage f (.data fun _ => 0)).pte d n = m.pte d n := by
    intro n
    rw [zeroPage_grant.pte, (h.tree.grant hf).pte]
  set m1 := (m.asked.grant f).setPage f (.data fun _ => 0)
  have hfd : (m1.page f).isData := by simp [m1, Page.isData]
  simp only [zeroPage, ends_bind, ends_modify]
  refine (mappages_spec hg.tree (.inl hg.free) (.inl ?_) f true true).imp ?_
  · rw [hpte]
    exact hnone _ (by decide)
  -- whether the page could be mapped is not checked
  rintro ok m' ⟨hfail, hsucc⟩
  have hpost : (Filled L d m0 m' ∧ ∀ n ≠ 0, n < UPAGES → (m'.pte d n).p = false) ∧
      (m'.page f).isData := by
    cases ok with
    | false =>
      obtain ⟨rfl, -⟩ := hfail rfl
      refine ⟨⟨hg.data (.asked m1), fun n _ hn => ?_⟩, hfd⟩
      rw [(DataOnly.asked m1).pte, hpte]
      exact hnone n hn
    | true =>
      obtain ⟨hb, hok, -, -, hpte'⟩ := hsucc rfl
      refine ⟨⟨hg.map hb (hok hg.free) (by decide) (h.shrinks f hf) hfd (fun n hn _ hp => ?_) hpte',
        fun n h0 hn => ?_⟩, hb.works.old_data hg.tree hfd⟩
      · rw [hpte, hnone n hn] at hp
        cases hp
      · rw [hpte', if_neg (by simpa using h0), hpte]
        exact hnone n hn
  refine (pokeBytes_spec fun _ => hpost.2).imp (fun _ m'' hd => ?_)
  refine ⟨hpost.1.1.data hd, fun n h0 hn => ?_⟩
  rw [hd.pte]
  exact hpost.1.2 n h0 hn

/-! ## `exec` -/

theorem pagesIn_le {sz : Nat} : pagesIn sz ≤ UPAGES ↔ sz ≤ KERNBASE := by
  unfold pagesIn UPAGES KERNBASE PGSIZE
  omega

theorem pagesIn_mono {a b : Nat} (h : a ≤ b) : pagesIn a ≤ pagesIn b :=
  Nat.div_le_div_right (by omega)

theorem pgRoundUp_div {sz : Nat} (h : sz ≤ KERNBASE) : pgRoundUp sz / PGSIZE = pagesIn sz := by
  unfold pgRoundUp pgRoundDown uint32 pagesIn
  unfold KERNBASE PGSIZE at *
  omega

theorem pagesIn_pgRoundUp {sz : Nat} (h : sz ≤ KERNBASE) : pagesIn (pgRoundUp sz) = pagesIn sz := by
  unfold pgRoundUp pgRoundDown uint32 pagesIn
  unfold KERNBASE PGSIZE at *
  omega

section

variable {L} {strict : Prop} {d sz : Nat} {m0 m : Mem}

section

variable (h : Image L (pagesIn sz) d m0 m)

include h

theorem Image.allocuvm_spec (newsz : Nat) :
    Ends (allocuvm L d sz newsz) m
      (fun r m' => Filled L d m0 m' ∧ (r ≠ 0 → newsz ≤ r ∧ Image L (pagesIn r) d m0 m'))
      (Calm True strict) := by
  have hsz := pagesIn_le.1 h.bound
  refine (Memory.allocuvm_spec L h.free h.tree (fun _ hlt => h.toFilled.freeable ?_)
    (fun _ hlt n hlo hn => .inl ?_) fun _ _ => L.gives_calm).imp ?_
  · exact pagesIn_le.2 hlt.le
  · rw [pgRoundUp_div hsz] at hlo
    exact h.above n hlo (lt_of_lt_of_le hn (pagesIn_le.2 hlt.le))
  intro r m' hend
  cases hend with
  | grown hlt hle hm hg =>
    have hle' : pagesIn sz ≤ pagesIn newsz := by
      unfold pagesIn PGSIZE
      omega
    rw [pgRoundUp_div hsz, max_eq_right hle'] at hg
    have hb := pagesIn_le.2 hlt.le
    have hfill := h.toFilled.grown hg.toGrown hm hb
    refine ⟨hfill, fun _ => ⟨le_rfl, hfill, hb, fun n hn => ?_, fun n hn hn' => ?_⟩⟩
    · by_cases hlo : pagesIn sz ≤ n
      · obtain ⟨f, hf, -⟩ := hg.new n hlo hn
        rw [hf]
      · rw [hg.old n (by omega)]
        exact h.below n (by omega)
    · rw [hg.old n (by omega)]
      exact h.above n (by omega) hn'
  | emptied hlt hle he _ =>
    exact ⟨h.toFilled.emptied he (pagesIn_le.2 hlt.le), fun h0 => absurd rfl h0⟩
  | large => exact ⟨h.toFilled, fun h0 => absurd rfl h0⟩
  | smaller hlt => exact ⟨h.toFilled, fun _ => ⟨hlt.le, h⟩⟩

theorem Image.loadPage_spec {s : Segment} {n : Nat}
    (hv : s.vaddr % PGSIZE = 0) (hn : n < pagesIn s.filesz) (hle : s.vaddr + s.filesz ≤ sz) :
    Ends (loadPage d s n) m (fun _ m' => DataOnly m m') (Calm True strict) := by
  have hsz := pagesIn_le.1 h.bound
  -- the page lies below the size of the image, so it is mapped
  have hpage : uint32 (s.vaddr + n * PGSIZE) / PGSIZE < pagesIn sz := by
    have := lt_pagesIn.1 hn
    unfold uint32 pagesIn
    unfold KERNBASE PGSIZE at *
    omega
  have hp := h.below _ hpage
  simp only [loadPage, ends_bind]
  refine walk_ends (.inl h.tree.dir_entries) ?_
  by_cases hpde : (m.pde d (pdx (uint32 (s.vaddr + n * PGSIZE)))).p
  · simp only [hpde, if_true, ends_bind]
    refine readPte_ends hpde (.inl (h.tree.entries hpde)) ?_
    split
    · simp only [ends_bind, ends_pure]
      exact pokeBytes_spec fun _ => (h.own _ (lt_of_lt_of_le hpage h.bound) hp).2
    · exact .refl m
  · rw [if_neg hpde]
    exact calm_panic m fun _ _ => by decide

theorem Image.loaduvm_spec {s : Segment}
    (hle : s.vaddr + s.filesz ≤ sz) :
    Ends (loaduvm d s) m (fun _ m' => DataOnly m m') (Calm True strict) := by
  simp only [loaduvm, ends_bind, ends_stopIf]
  refine ⟨fun _ => calm_panic _ fun _ _ => by decide, fun hv => ?_⟩
  refine ends_untilSome (fun _ s => DataOnly m s) (.refl m) (fun k _ hk m' hd => ?_) fun _ h => h
  refine ((h.data hd).loadPage_spec (not_not.1 hv) (by omega) hle).imp ?_
  exact fun r m'' hd' => ⟨fun _ => hd.trans hd', fun _ => hd.trans hd'⟩

theorem Image.loadSegment_spec (s : Segment) :
    Ends (loadSegment L d sz s) m
      (fun r m' => Filled L d m0 m' ∧ ∀ sz', r = some sz' → Image L (pagesIn sz') d m0 m')
      (Calm True strict) := by
  simp only [loadSegment]
  by_cases hr : s.readable = false
  · simp only [hr, if_true, ends_pure]
    exact ⟨h.toFilled, by simp⟩
  by_cases hl : s.load = false
  · rw [if_neg hr, if_pos hl]
    refine ⟨h.toFilled, fun sz' hsz' => ?_⟩
    cases hsz'
    exact h
  by_cases hbad : s.memsz < s.filesz ∨ uint32 (s.vaddr + s.memsz) < s.vaddr
  · rw [if_neg hr, if_neg hl, if_pos hbad]
    exact ⟨h.toFilled, by simp⟩
  rw [if_neg hr, if_neg hl, if_neg hbad, ends_bind]
  refine (h.allocuvm_spec _).imp ?_
  rintro sz' m1 ⟨hfill, himage⟩
  by_cases hz : sz' = 0 ∨ s.vaddr % PGSIZE ≠ 0
  · rw [if_pos hz]
    exact ⟨hfill, by simp⟩
  rw [if_neg hz, ends_bind]
  obtain ⟨hnew, himage⟩ := himage fun h0 => hz (.inl h0)
  -- the addresses of the segment do not wrap around
  have hle : s.vaddr + s.filesz ≤ sz' := by
    have hsmall := s.small
    unfold uint32 at hnew hbad
    omega
  refine (himage.loaduvm_spec hle).imp (fun r m2 hd => ?_)
  cases r with
  | some _ => exact ⟨hfill.data hd, by simp⟩
  | none =>
    refine ⟨hfill.data hd, fun sz'' hsz'' => ?_⟩
    obtain rfl := Option.some.inj hsz''
    exact himage.data hd

end

theorem Image.loadSegments_spec (ss : List Segment) (h : Image L (pagesIn sz) d m0 m) :
    Ends (loadSegments L d sz ss) m
      (fun r m' => Filled L d m0 m' ∧ ∀ sz', r = some sz' → Image L (pagesIn sz') d m0 m')
      (Calm True strict) := by
  induction ss generalizing sz m with
  | nil =>
    refine ⟨h.toFilled, fun sz' hsz' => ?_⟩
    cases hsz'
    exact h
  | cons s ss ih =>
    simp only [loadSegments, ends_bind]
    refine (h.loadSegment_spec s).imp ?_
    rintro (_ | sz') m1 ⟨hfill, himage⟩
    · exact ⟨hfill, by simp⟩
    · exact ih (himage sz' rfl)

theorem Image.clearpteu_spec {k n : Nat} (h : Image L k d m0 m) {uva : Nat}
    (hn : uva / PGSIZE = n) (hk : n < k) :
    Ends (clearpteu d uva) m (fun _ m' => Image L k d m0 m') (Calm True strict) := by
  subst hn
  have hU := lt_of_lt_of_le hk h.bound
  have hp := h.below _ hk
  obtain ⟨hf, hdata⟩ := h.own _ hU hp
  simp only [clearpteu, ends_bind]
  refine walk_ends (.inl h.tree.dir_entries) ?_
  by_cases hpde : (m.pde d (pdx uva)).p
  · simp only [hpde, if_true, ends_bind]
    refine readPte_ends hpde (.inl (h.tree.entries hpde)) ?_
    simp only [writePte, ends_modify]
    set e : Pte := ⟨(m.pte d (uva / PGSIZE)).ppn, (m.pte d (uva / PGSIZE)).p,
      (m.pte d (uva / PGSIZE)).w, false⟩
    obtain ⟨hb, -, hpte⟩ := h.tree.writePte (e := e) hpde
    refine ⟨h.toFilled.map (e := e) hb (h.free.setEntry _ _ _) hU hf hdata
      (fun n hn hne hpn heq => ?_) hpte, h.bound, fun n hn => ?_, fun n hn hn' => ?_⟩
    · exact hne (h.inj n hn _ hU hpn hp heq)
    · rw [hpte]
      split
      · exact hp
      · exact h.below n hn
    · rw [hpte, if_neg (by omega)]
      exact h.above n hn hn'
  · rw [if_neg hpde]
    exact calm_panic m fun _ _ => by decide

/-- **`copyout`** stores data only: what user code may not access, it does not write. -/
theorem Filled.copyoutLoop_spec (fuel : Nat) {va : Nat} {bs : List UInt8} (h : Filled L d m0 m) :
    Ends (copyoutLoop d fuel va bs) m (fun _ m' => DataOnly m m') (Calm True strict) := by
  induction fuel generalizing va bs m with
  | zero => exact .refl m
  | succ fuel ih =>
    rw [copyoutLoop]
    by_cases hbs : bs = []
    · simp only [hbs, if_true, ends_pure]
      exact .refl m
    simp only [hbs, if_false, uva2ka, ends_bind]
    refine walk_ends (.inl h.tree.dir_entries) ?_
    by_cases hpde : (m.pde d (pdx (pgRoundDown va))).p
    · simp only [hpde, if_true, ends_bind]
      refine readPte_ends hpde (.inl (h.tree.entries hpde)) ?_
      set e := m.pte d (pgRoundDown va / PGSIZE) with he
      rw [ends_pure]
      by_cases hacc : e.p ∧ e.u
      · -- the kernel half is not accessible, so it is a page of the image
        have hU : pgRoundDown va / PGSIZE < UPAGES := by
          by_contra hU
          rw [he, h.kernel _ (not_lt.1 hU), kernelPte_u] at hacc
          exact Bool.false_ne_true hacc.2
        simp only [hacc.1, hacc.2, and_self, if_true, ends_bind]
        refine (pokeBytes_spec fun _ => (h.own _ hU hacc.1).2).imp (fun _ m1 hd => ?_)
        exact (ih (h.data hd)).imp (fun _ _ hd' => hd.trans hd')
      · rw [if_neg hacc]
        exact .refl m
    · rw [if_neg hpde]
      exact calm_fault _ _ m

theorem Filled.pushArgs_spec (args : List (List UInt8)) {sp argc : Nat} {ptrs : List Nat}
    (h : Filled L d m0 m) :
    Ends (pushArgs d sp argc ptrs args) m (fun _ m' => DataOnly m m') (Calm True strict) := by
  induction args generalizing sp argc ptrs m with
  | nil => exact .refl m
  | cons arg args ih =>
    simp only [pushArgs]
    split
    · exact .refl m
    · rw [ends_bind]
      refine (h.copyoutLoop_spec _).imp (fun ok m1 hd => ?_)
      cases ok with
      | true => exact (ih (h.data hd)).imp (fun _ _ hd' => hd.trans hd')
      | false => exact hd

/-- **The part of `exec` that fills the new directory.** -/
theorem Image.loadImage_spec (h : Image L 0 d m0 m) (prog : Program) (args : List (List UInt8)) :
    Ends (loadImage L d prog args) m
      (fun r m' => Filled L d m0 m' ∧
        ∀ sz sp, r = some (sz, sp) → Image L (pagesIn sz) d m0 m' ∧ sp < 2 ^ 32)
      (Calm True strict) := by
  have h0 : Image L (pagesIn 0) d m0 m := by
    rwa [show pagesIn 0 = 0 by decide]
  simp only [loadImage, ends_bind]
  refine (h0.loadSegments_spec prog.segments).imp ?_
  rintro (_ | sz) m1 ⟨hfill, himage⟩
  · exact ⟨hfill, by simp⟩
  have himage := himage sz rfl
  have hsz := pagesIn_le.1 himage.bound
  rw [← pagesIn_pgRoundUp hsz] at himage
  rw [ends_bind]
  refine (himage.allocuvm_spec _).imp ?_
  rintro sz' m2 ⟨hfill, himage⟩
  by_cases hz : sz' = 0
  · rw [if_pos hz]
    exact ⟨hfill, by simp⟩
  obtain ⟨hle, himage⟩ := himage hz
  rw [if_neg hz, ends_bind]
  have hsz' := pagesIn_le.1 himage.bound
  -- two pages were added, the first of which is the one without access
  have hge : 2 * PGSIZE ≤ sz' := by
    unfold uint32 pgRoundUp pgRoundDown uint32 at hle
    unfold KERNBASE PGSIZE at *
    omega
  refine (himage.clearpteu_spec rfl ?_).imp (fun _ m3 h3 => ?_)
  · unfold uint32 pagesIn
    unfold KERNBASE PGSIZE at *
    omega
  rw [ends_bind]
  refine (h3.toFilled.pushArgs_spec args).imp (fun r m4 hd => ?_)
  have h4 := h3.data hd
  rcases r with _ | ⟨sp, ptrs⟩
  · exact ⟨h4.toFilled, by simp⟩
  simp only [ends_bind]
  refine (h4.toFilled.copyoutLoop_spec _).imp (fun ok m5 hd' => ?_)
  have h5 := h4.data hd'
  cases ok with
  | true =>
    refine ⟨h5.toFilled, fun sz sp heq => ?_⟩
    obtain ⟨rfl, rfl⟩ := Prod.mk.inj (Option.some.inj heq)
    exact ⟨h5, uint32_lt _⟩
  | false => exact ⟨h5.toFilled, by simp⟩

end

/-- **`exec` up to its commit**: a new address space, or the memory as it was. -/
theorem execImage_spec {strict : Prop} {m0 : Mem} (hm : m0.FreeOk) (prog : Option Program)
    (args : List (List UInt8)) :
    Ends (execImage L prog args) m0
      (fun r m' => (r = none → Restored m0 m') ∧
        ∀ d sz sp, r = some (d, sz, sp) → Image L (pagesIn sz) d m0 m' ∧ sp < 2 ^ 32)
      (Calm True strict) := by
  have hrefl : Restored m0 m0 := ⟨hm, .refl _ _, fun _ h => h⟩
  rcases prog with _ | prog
  · exact ⟨fun _ => hrefl, by simp⟩
  simp only [execImage]
  split
  · exact ⟨fun _ => hrefl, by simp⟩
  rw [ends_bind]
  refine (setupkvm_spec L fun _ => hm).imp ?_
  rintro (_ | d) m1 ⟨hnone, hsome⟩
  · exact ⟨fun _ => hnone rfl trivial, by simp⟩
  obtain ⟨hfresh, hok⟩ := hsome d rfl
  simp only [ends_bind]
  refine ((Image.of_fresh hfresh (hok trivial)).loadImage_spec prog args).imp ?_
  rintro (_ | ⟨sz, sp⟩) m2 ⟨hfill, himage⟩
  · simp only [ends_bind]
    exact hfill.freevm_spec.imp (fun _ _ h => ⟨fun _ => h, by simp⟩)
  · refine ⟨by simp, fun d' sz' sp' heq => ?_⟩
    obtain ⟨rfl, hrest⟩ := Prod.mk.inj (Option.some.inj heq)
    exact himage sz' sp' (congrArg some hrest)

end Xv6.Memory
