import Xv6.Memory.Build

/-! # Changing an address space

What `sbrk`, `getpage` and `detachpage` do to a page directory that may be in use. `Works d m m'`
says that between `m` and `m'` the directory `d` was worked on, with pages from the free list, and
that nothing else has changed but bytes of ordinary memory.

* **`allocuvm_spec`** — either every page of the range is new (`Grown`), or none of the range is
  mapped any more (`Emptied`): if there is no memory, `allocuvm` frees the whole range, whether or
  not it mapped the pages itself.
* **`palloc_spec`**, **`unmappages_spec`** — one page is mapped, and unmapped. -/

namespace Xv6.Memory

open Foundation

variable (L : Layout)

/-! ## Work on one directory -/

/-- **The directory `d` was worked on, and nothing else has changed.** -/
structure Works (d : Frame) (m m' : Mem) : Prop where
  tree : m'.Tree d
  keeps : Keeps (m.PartOf d) m m'
  parts : ∀ g, m'.PartOf d g → m.PartOf d g ∨ (m.page g).isFree
  shrinks : ∀ g, (m'.page g).isFree → (m.page g).isFree
  dirs : ∀ g, (m'.page g).isDir → (m.page g).isDir

theorem Builds.works {d : Frame} {m m' : Mem} (h : Builds d m m') : Works d m m' :=
  ⟨h.tree, h.keeps, h.parts, h.shrinks, h.dirs⟩

theorem DataOnly.works {d : Frame} {m m' : Mem} (h : DataOnly m m') (ht : m.Tree d) :
    Works d m m' where
  tree := h.tree ht
  keeps := h.keeps _
  parts g hg := .inl ((h.partOf d g).1 hg)
  shrinks g hg := (h.page g).isFree ▸ hg
  dirs g hg := (h.page g).isDir ▸ hg

namespace Works

variable {d f : Frame} {m0 m m' m'' : Mem} {x : Page}

theorem refl (h : m.Tree d) : Works d m m := (Builds.refl h).works

theorem trans (h : Works d m m') (h' : Works d m' m'') : Works d m m'' where
  tree := h'.tree
  keeps := h.keeps.trans h'.keeps h.parts
  parts g hg := by
    rcases h'.parts g hg with hg | hg
    · exact h.parts g hg
    · exact .inr (h.shrinks g hg)
  shrinks g hg := h.shrinks g (h'.shrinks g hg)
  dirs g hg := h.dirs g (h'.dirs g hg)

theorem change (h : Works d m0 m) (hf : (m0.page f).isFree) (hs : Swaps d f m m')
    (hx : (m'.page f).isDir = false) : Works d m0 m' where
  tree := hs.tree
  keeps := h.keeps.trans hs.keeps fun g hg => .inr (hg ▸ hf)
  parts g hg := h.parts g (hs.part.1 hg)
  shrinks g hg := by
    rcases hs.free hg with rfl | hg
    · exact hf
    · exact h.shrinks g hg
  dirs g hg := h.dirs g (hs.dir hx hg)

theorem not_part (h : Works d m0 m) (hf : (m.page f).isFree) : ¬ m.PartOf d f := fun hpart => by
  simp [(h.tree.part hpart).1] at hf

theorem grant (h : Works d m0 m) (hf : (m.page f).isFree) : Works d m0 (m.asked.grant f) :=
  h.change (h.shrinks f hf) (h.tree.grant hf) (by simp [Page.isDir])

theorem old_data (h : Works d m m') (ht : m.Tree d) {g : Frame} (hg : (m.page g).isData) :
    (m'.page g).isData := by
  refine (h.keeps g (Page.isFree_of_isData hg) fun hpart => ?_).isData.trans hg
  simp [(ht.part hpart).2] at hg

end Works

theorem zeroPage_grant {m : Mem} {f : Frame} :
    DataOnly (m.asked.grant f) ((m.asked.grant f).setPage f (.data fun _ => 0)) :=
  DataOnly.setPage (by simp [Page.isData]) _

/-! ## A range of new pages -/

/-- **The pages from `lo` to `k` were added**: each of them is a page that was free. -/
structure Grown (d lo k : Nat) (m0 m : Mem) : Prop where
  works : Works d m0 m
  old : ∀ n, ¬ (lo ≤ n ∧ n < k) → m.pte d n = m0.pte d n
  new : ∀ n, lo ≤ n → n < k →
    ∃ f, m.pte d n = ⟨f, true, true, true⟩ ∧ (m0.page f).isFree ∧ (m.page f).isData
  inj : ∀ n k', lo ≤ n → n < k → lo ≤ k' → k' < k → (m.pte d n).ppn = (m.pte d k').ppn → n = k'

/-- **None of the pages from `lo` to `hi` is mapped any more**; those that were are free. -/
structure Emptied (d lo hi : Nat) (m0 m : Mem) : Prop where
  free : m.FreeOk
  tree : m.Tree d
  keeps : Keeps (fun g => m0.PartOf d g ∨ m0.MapsIn d lo hi g) m0 m
  inside : ∀ n, lo ≤ n → n < hi → (m.pte d n).p = false
  outside : ∀ n, ¬ (lo ≤ n ∧ n < hi) → m.pte d n = m0.pte d n
  parts : ∀ g, m.PartOf d g → m0.PartOf d g ∨ (m0.page g).isFree
  freed : ∀ g, (m.page g).isFree → (m0.page g).isFree ∨ m0.MapsIn d lo hi g
  dirs : ∀ g, (m.page g).isDir → (m0.page g).isDir

namespace Grown

variable {d lo k hi : Nat} {f : Frame} {m0 m m' : Mem}

theorem nil (ht : m.Tree d) : Grown d lo lo m m where
  works := .refl ht
  old _ _ := rfl
  new n hlo hk := by omega
  inj n k' hlo hk := by omega

section

variable (h : Grown d lo k m0 m)

include h

theorem data (hd : DataOnly m m') : Grown d lo k m0 m' where
  works := h.works.trans (hd.works h.works.tree)
  old n hn := by rw [hd.pte, h.old n hn]
  new n hlo hk := by
    obtain ⟨f, hf, hfree, hdata⟩ := h.new n hlo hk
    exact ⟨f, by rw [hd.pte, hf], hfree, by rw [(hd.page f).isData, hdata]⟩
  inj n k' := by
    rw [hd.pte, hd.pte]
    exact h.inj n k'

theorem change (hf : (m0.page f).isFree)
    (hnew : ∀ n, lo ≤ n → n < k → (m.pte d n).ppn ≠ f) (hs : Swaps d f m m')
    (hx : (m'.page f).isDir = false) : Grown d lo k m0 m' := by
  refine ⟨h.works.change hf hs hx, fun n hn => by rw [hs.pte, h.old n hn],
    fun n hlo hk => ?_, fun n k' => by rw [hs.pte, hs.pte]; exact h.inj n k'⟩
  obtain ⟨g, hg, hfree, hdata⟩ := h.new n hlo hk
  have hgf : g ≠ f := by
    have := hnew n hlo hk
    rwa [hg] at this
  exact ⟨g, by rw [hs.pte, hg], hfree, by rw [hs.page g hgf, hdata]⟩

theorem new_ne (hf : (m.page f).isFree) (n : Nat) (hlo : lo ≤ n)
    (hk : n < k) : (m.pte d n).ppn ≠ f := by
  obtain ⟨g, hg, -, hdata⟩ := h.new n hlo hk
  rw [hg]
  rintro rfl
  simp [Page.isData_of_isFree hf] at hdata

theorem grant (hf : (m.page f).isFree) :
    Grown d lo k m0 (m.asked.grant f) :=
  h.change (h.works.shrinks f hf) (h.new_ne hf) (h.works.tree.grant hf) (by simp [Page.isDir])

theorem next (hlo : lo ≤ k) (hf : (m0.page f).isFree)
    (hd : (m.page f).isData) (hnew : ∀ n, lo ≤ n → n < k → (m.pte d n).ppn ≠ f)
    (hb : Builds d m m') (hpte : ∀ n, m'.pte d n = if n = k then ⟨f, true, true, true⟩
      else m.pte d n) :
    Grown d lo (k + 1) m0 m' := by
  have hdata : ∀ {g}, (m.page g).isData → (m'.page g).isData := hb.works.old_data h.works.tree
  have hne : ∀ n, n < k → m'.pte d n = m.pte d n := fun n hn => by rw [hpte, if_neg (by omega)]
  have hk : m'.pte d k = ⟨f, true, true, true⟩ := by rw [hpte, if_pos rfl]
  refine ⟨h.works.trans hb.works, fun n hn => ?_, fun n hlo' hn => ?_,
    fun n k' hn hn' hk1 hk2 heq => ?_⟩
  · rw [hpte, if_neg (by omega), h.old n (by omega)]
  · rcases Nat.lt_succ_iff_lt_or_eq.1 hn with hn | rfl
    · obtain ⟨g, hg, hfree, hgd⟩ := h.new n hlo' hn
      exact ⟨g, by rw [hne n hn, hg], hfree, hdata hgd⟩
    · exact ⟨f, hk, hf, hdata hd⟩
  · rcases Nat.lt_succ_iff_lt_or_eq.1 hn' with hlt | rfl <;>
      rcases Nat.lt_succ_iff_lt_or_eq.1 hk2 with hlt' | rfl
    · rw [hne n hlt, hne k' hlt'] at heq
      exact h.inj n k' hn hlt hk1 hlt' heq
    · rw [hne n hlt, hk] at heq
      exact absurd heq (hnew n hn hlt)
    · rw [hne k' hlt', hk] at heq
      exact absurd heq.symm (hnew k' hk1 hlt')
    · rfl

theorem mapsIn {g : Frame} (hg : m.MapsIn d lo hi g) :
    (m0.page g).isFree ∨ m0.MapsIn d lo hi g := by
  obtain ⟨n, hlo, hhi, hp, rfl⟩ := hg
  by_cases hn : n < k
  · obtain ⟨f, hf, hfree, -⟩ := h.new n hlo hn
    exact .inl (by rw [hf]; exact hfree)
  · rw [h.old n (by omega)] at hp ⊢
    exact .inr ⟨n, hlo, hhi, hp, rfl⟩

theorem freeable (ht : m0.Tree d) (hfree : m0.Freeable d lo hi) :
    m.Freeable d lo hi := by
  -- a page of the range is a new one, or it is mapped as before
  have hcases : ∀ n, lo ≤ n → n < hi → (m.pte d n).p →
      (n < k ∧ (m0.page (m.pte d n).ppn).isFree ∧ (m.page (m.pte d n).ppn).isData) ∨
      (k ≤ n ∧ m.pte d n = m0.pte d n ∧ (m0.page (m.pte d n).ppn).isData) := by
    intro n hlo hhi hp
    by_cases hn : n < k
    · obtain ⟨f, hf, hfr, hd⟩ := h.new n hlo hn
      exact .inl ⟨hn, by rw [hf]; exact ⟨hfr, hd⟩⟩
    · have hold := h.old n (by omega)
      rw [hold] at hp ⊢
      exact .inr ⟨by omega, rfl, hfree.data n hlo hhi hp⟩
  refine ⟨fun n hlo hhi hp => ?_, fun n n' hlo hhi hlo' hhi' hp hp' heq => ?_⟩
  · rcases hcases n hlo hhi hp with ⟨-, -, hd⟩ | ⟨-, -, hd⟩
    · exact hd
    · exact h.works.old_data ht hd
  · rcases hcases n hlo hhi hp with ⟨hn, hf, -⟩ | ⟨-, ho, hd⟩ <;>
      rcases hcases n' hlo' hhi' hp' with ⟨hn', hf', -⟩ | ⟨-, ho', hd'⟩
    · exact h.inj n n' hlo hn hlo' hn' heq
    · rw [heq] at hf
      simp [Page.isData_of_isFree hf] at hd'
    · rw [heq] at hd
      simp [Page.isData_of_isFree hf'] at hd
    · rw [ho] at hp heq
      rw [ho'] at hp' heq
      exact hfree.inj n n' hlo hhi hlo' hhi' hp hp' heq

end

end Grown

/-! ## A range that is given back -/

theorem Dealloc.dirs {d lo hi : Nat} {m m' : Mem} (h : Dealloc d lo hi m m') (ht : m.Tree d)
    {g : Frame} (hg : (m'.page g).isDir) : (m.page g).isDir := by
  by_cases hpart : m.PartOf d g
  · rcases hpart with rfl | ⟨i, hi', rfl⟩
    · exact ht.dir
    · rw [← h.pde] at hi' hg
      obtain ⟨es, hes⟩ := h.tree.table i hi'
      rw [hes] at hg
      cases hg
  · by_cases hmaps : m.MapsIn d lo hi g
    · simp [Page.isDir_of_isFree (h.freed g hmaps)] at hg
    · rwa [h.kept g hpart hmaps] at hg

theorem Dealloc.emptied {d lo hi : Nat} {m m' : Mem} (h : Dealloc d lo hi m m') (ht : m.Tree d) :
    Emptied d lo hi m m' where
  __ := h
  keeps g _ hg := by
    rw [h.kept g (fun hp => hg (.inl hp)) fun hp => hg (.inr hp)]
    exact .refl _
  parts g hg := .inl ((h.part g).1 hg)
  freed g hg := by
    by_cases hmaps : m.MapsIn d lo hi g
    · exact .inr hmaps
    · refine .inl ?_
      rwa [h.kept g (fun hp => ?_) hmaps] at hg
      simp [(h.tree.part ((h.part g).2 hp)).1] at hg
  dirs _ hg := h.dirs ht hg

namespace Emptied

variable {d lo k hi : Nat} {f : Frame} {m0 m m' : Mem}

theorem of_grown (h : Emptied d lo hi m m') (hg : Grown d lo k m0 m) (hk : k ≤ hi) :
    Emptied d lo hi m0 m' := by
  refine ⟨h.free, h.tree, ?_, h.inside, fun n hn => ?_, fun g hp => ?_, fun g hf => ?_,
    fun g hd => hg.works.dirs g (h.dirs g hd)⟩
  · refine (hg.works.keeps.mono fun g _ hp => .inl hp).trans h.keeps fun g hS => ?_
    rcases hS with hpart | hm
    · exact (hg.works.parts g hpart).imp_left .inl
    · exact (hg.mapsIn hm).symm.imp_left .inr
  · rw [h.outside n hn, hg.old n (by omega)]
  · rcases h.parts g hp with hp | hf
    · exact hg.works.parts g hp
    · exact .inr (hg.works.shrinks g hf)
  · rcases h.freed g hf with hf | hm
    · exact .inl (hg.works.shrinks g hf)
    · exact hg.mapsIn hm

theorem release (h : Emptied d lo hi m0 m) (hf : (m0.page f).isFree) (hd : (m.page f).isData) :
    Emptied d lo hi m0 (m.release f) := by
  have hs := h.tree.release (f := f) fun hg => by simp [(h.tree.part hg).2] at hd
  refine ⟨h.free.release (Page.isFree_of_isData hd), hs.tree,
    h.keeps.trans hs.keeps fun g hg => .inr (hg ▸ hf), fun n hlo hhi => ?_, fun n hn => ?_,
    fun g hg => h.parts g (hs.part.1 hg), fun g hg => ?_,
    fun g hg => h.dirs g (hs.dir (by simp [Page.isDir]) hg)⟩
  · rw [hs.pte, h.inside n hlo hhi]
  · rw [hs.pte, h.outside n hn]
  · rcases hs.free hg with rfl | hg
    · exact .inl hf
    · exact h.freed g hg

end Emptied

/-! ## Where the pages went -/

/-- **The new pages are zero, and no other page was lost**: what was taken from the free list is
part of the directory, mapped in the range, or the page `held`. -/
structure Stocked (d lo k : Nat) (held : Option Frame) (m0 m : Mem) : Prop
    extends Grown d lo k m0 m where
  exact : m0.Exact m
  zero : ∀ n, lo ≤ n → n < k → m.page (m.pte d n).ppn = .data fun _ => 0
  taken : ∀ g, (m0.page g).isFree → (m.page g).isFree = false →
    m.PartOf d g ∨ held = some g ∨ ∃ n, lo ≤ n ∧ n < k ∧ (m.pte d n).ppn = g

namespace Stocked

variable {d lo k hi : Nat} {f : Frame} {held : Option Frame} {m0 m m' : Mem}

theorem nil (ht : m.Tree d) : Stocked d lo lo none m m where
  toGrown := .nil ht
  exact := .refl m
  zero n hlo hk := by omega
  taken g hg hg' := by simp [hg] at hg'

theorem asked (h : Stocked d lo k held m0 m) : Stocked d lo k held m0 m.asked where
  __ := h
  toGrown := h.toGrown.data (.asked m)

theorem take (h : Stocked d lo k none m0 m) (hf : (m.page f).isFree) :
    let m' := (m.asked.grant f).setPage f (.data fun _ => 0)
    Stocked d lo k (some f) m0 m' ∧ ∀ n, m'.pte d n = m.pte d n := by
  intro m'
  have hs : Swaps d f m m' := ⟨h.works.tree, h.works.not_part hf, fun g hg => by
    simp [m', put_of_ne hg]⟩
  refine ⟨⟨(h.toGrown.grant hf).data zeroPage_grant, h.exact.trans (exact_of_free hf hs.page),
    fun n hlo hk => ?_, fun g hg hg' => ?_⟩, hs.pte⟩
  · rw [hs.pte, hs.page _ (h.new_ne hf n hlo hk), h.zero n hlo hk]
  · by_cases hgf : g = f
    · exact .inr (.inl (hgf ▸ rfl))
    · rw [hs.page g hgf] at hg'
      simpa [hs.part, hs.pte, Ne.symm hgf] using h.taken g hg hg'

theorem next (h : Stocked d lo k (some f) m0 m) (hlo : lo ≤ k) (hf : (m0.page f).isFree)
    (hz : m.page f = .data fun _ => 0) (hnew : ∀ n, lo ≤ n → n < k → (m.pte d n).ppn ≠ f)
    (hb : Builds d m m') (hpte : ∀ n, m'.pte d n = if n = k then ⟨f, true, true, true⟩
      else m.pte d n) :
    Stocked d lo (k + 1) none m0 m' := by
  have hsame := hb.exact h.works.tree
  refine ⟨h.toGrown.next hlo hf (by rw [hz]; rfl) hnew hb hpte, h.exact.trans hsame,
    fun n hn hn' => ?_, fun g hg hg' => ?_⟩
  · rcases Nat.lt_succ_iff_lt_or_eq.1 hn' with hlt | rfl
    · have hzero := h.zero n hn hlt
      rw [hpte, if_neg (by omega), hsame _ (by rw [hzero]; rfl), hzero]
    · rw [hpte, if_pos rfl, hsame f (by rw [hz]; rfl), hz]
  · rcases hm : (m.page g).isFree with _ | _
    · rcases h.taken g hg hm with hp | hheld | ⟨n, hn, hn', heq⟩
      · exact .inl (hb.grows g hp)
      · exact .inr (.inr ⟨k, hlo, by omega, by rw [hpte, if_pos rfl]; exact Option.some.inj hheld⟩)
      · exact .inr (.inr ⟨n, hn, by omega, by rw [hpte, if_neg (by omega), heq]⟩)
    · exact .inl (hb.taken g hm hg')

theorem back (h : Stocked d lo k held m0 m) (hd : Dealloc d lo hi m m') (hk : k ≤ hi)
    (hfree : m.Freeable d lo hi) {g : Frame} (hg : (m0.page g).isFree)
    (hg' : (m'.page g).isFree = false) : m'.PartOf d g ∨ held = some g := by
  rcases hm : (m.page g).isFree with _ | _
  · rcases h.taken g hg hm with hp | hheld | ⟨n, hn, hn', rfl⟩
    · exact .inl ((hd.part g).2 hp)
    · exact .inr hheld
    · obtain ⟨f, hf, -⟩ := h.new n hn hn'
      simp [hd.freed _ ⟨n, hn, hn'.trans_le hk, by rw [hf], rfl⟩] at hg'
  · -- what is still free is not mapped
    rw [hd.kept g (h.works.not_part hm), hm] at hg'
    · cases hg'
    · rintro ⟨n, hn, hn', hp, rfl⟩
      have := hfree.data n hn hn' hp
      simp [Page.isData_of_isFree hm] at this

end Stocked

/-! ## `allocuvm` -/

section

variable {C : Stop → Mem → Prop} {d oldsz newsz k : Nat} {held : Option Frame} {m0 m : Mem}

theorem le_pgRoundUp (h : oldsz < KERNBASE) : oldsz ≤ pgRoundUp oldsz / PGSIZE * PGSIZE := by
  unfold pgRoundUp pgRoundDown uint32
  unfold KERNBASE PGSIZE at *
  omega

theorem Stocked.dealloc_spec (h : Stocked d (pgRoundUp oldsz / PGSIZE) k held m0 m) (hm : m.FreeOk)
    (ht : m0.Tree d) (hold : oldsz < KERNBASE)
    (hlo : pgRoundUp oldsz / PGSIZE ≤ k) (hk : k < pagesIn newsz)
    (hfree : m0.Freeable d (pgRoundUp oldsz / PGSIZE) (pagesIn newsz))
    (hL : ∀ g, (m0.page g).isFree ∨ m0.MapsIn d (pgRoundUp oldsz / PGSIZE) (pagesIn newsz) g →
      L.Gives C g) :
    Ends (deallocuvm L d newsz oldsz) m
      (fun _ m' => Emptied d (pgRoundUp oldsz / PGSIZE) (pagesIn newsz) m0 m' ∧
        (∀ f, (m0.page f).isFree → (m.page f).isData →
          (∀ n, pgRoundUp oldsz / PGSIZE ≤ n → n < k → (m.pte d n).ppn ≠ f) → (m'.page f).isData) ∧
        ∀ g, (m0.page g).isFree → (m'.page g).isFree = false → m'.PartOf d g ∨ held = some g)
          C := by
  have hlt : oldsz < newsz := by
    have h1 := le_pgRoundUp hold
    have h2 := lt_pagesIn.1 hk
    have h3 := Nat.mul_le_mul_right PGSIZE hlo
    omega
  have hfree' := h.freeable ht hfree
  refine (deallocuvm_spec L newsz oldsz hm h.works.tree (fun _ => hfree')
    fun _ g hg => hL g (h.mapsIn hg)).imp ?_
  rintro r m' ⟨-, hd⟩
  have hd := (hd hlt).2
  refine ⟨(hd.emptied h.works.tree).of_grown h.toGrown (by omega), fun f hf hdata hnot => ?_,
    fun g => h.back hd hk.le hfree'⟩
  -- a page that was taken in the meantime is mapped nowhere in the range
  have hpart : ¬ m.PartOf d f := fun hp => by simp [(h.works.tree.part hp).2] at hdata
  rw [hd.kept f hpart, hdata]
  rintro ⟨n, hlo', hhi, hp, rfl⟩
  by_cases hn : n < k
  · exact hnot n hlo' hn rfl
  · rw [h.old n (by omega)] at hp hf
    have := hfree.data n hlo' hhi hp
    simp [Page.isData_of_isFree hf] at this

theorem allocPage_spec (h : Stocked d (pgRoundUp oldsz / PGSIZE) k none m0 m) (hm : m.FreeOk)
    (ht : m0.Tree d) (hold : oldsz < KERNBASE)
    (hlo : pgRoundUp oldsz / PGSIZE ≤ k) (hk : k < pagesIn newsz)
    (hfree : m0.Freeable d (pgRoundUp oldsz / PGSIZE) (pagesIn newsz))
    (hnew : (m0.pte d k).p = false ∨ ∀ s, C (.panic "remap") s)
    (hL : ∀ g, (m0.page g).isFree ∨ m0.MapsIn d (pgRoundUp oldsz / PGSIZE) (pagesIn newsz) g →
      L.Gives C g) :
    Ends (allocPage L d oldsz newsz k) m
      (fun r m' => (r = none → m'.FreeOk ∧ Stocked d (pgRoundUp oldsz / PGSIZE)
        (k + 1) none m0 m') ∧
        (r ≠ none → Emptied d (pgRoundUp oldsz / PGSIZE) (pagesIn newsz) m0 m' ∧
          ∀ g, (m0.page g).isFree → (m'.page g).isFree = false → m'.PartOf d g)) C := by
  have hdiv : k * PGSIZE / PGSIZE = k := Nat.mul_div_cancel k (by decide)
  simp only [allocPage, ends_bind]
  refine kalloc_ends (.inl hm) ?_ fun f fs hl hf => ?_
  · simp only [ends_bind]
    refine (h.asked.dealloc_spec L hm.asked ht hold hlo hk hfree hL).imp ?_
    rintro _ m' ⟨hem, -, hback⟩
    exact ⟨by simp, fun _ => ⟨hem, fun g hg hg' => by simpa using hback g hg hg'⟩⟩
  have hf0 := h.works.shrinks f hf
  obtain ⟨hg, hpte1⟩ := h.take hf
  have hok := zeroPage_grant.freeOk (hm.grant hl)
  set m1 := (m.asked.grant f).setPage f (.data fun _ => 0)
  have hz : m1.page f = .data fun _ => 0 := by simp [m1]
  have hfd : (m1.page f).isData := by rw [hz]; rfl
  have hnot : ∀ n, pgRoundUp oldsz / PGSIZE ≤ n → n < k → (m1.pte d n).ppn ≠ f := by
    intro n hlo hn
    rw [hpte1]
    exact h.new_ne hf n hlo hn
  simp only [zeroPage, ends_bind, ends_modify]
  refine (mappages_spec hg.works.tree (.inl hok) ?_ f true true).imp ?_
  · rwa [hdiv, hg.old k (by omega)]
  rintro (_ | _) m' ⟨hfail, hsucc⟩
  · obtain ⟨rfl, -⟩ := hfail rfl
    simp only [Bool.false_eq_true, if_false, ends_bind]
    refine (hg.asked.dealloc_spec L hok.asked ht hold hlo hk hfree hL).imp ?_
    rintro _ m' ⟨hem, hkeep, hback⟩
    have hd := hkeep f hf0 hfd hnot
    have hdf : d ≠ f := by
      rintro rfl
      simp [Page.isData_of_isDir hem.tree.dir] at hd
    refine kfree_gives L (hL f (.inl hf0))
      ⟨by simp, fun _ => ⟨hem.release hf0 hd, fun g hg hg' => ?_⟩⟩
    have hgf : g ≠ f := by
      rintro rfl
      simp [Page.isFree] at hg'
    rw [Mem.release_page, put_of_ne hgf] at hg'
    simpa [Mem.PartOf, Mem.pde, put_of_ne hdf, hgf.symm] using hback g hg hg'
  · obtain ⟨hb, hok', -, -, hpte⟩ := hsucc rfl
    rw [hdiv] at hpte
    exact ⟨fun _ => ⟨hok' hok, hg.next hlo hf0 hz hnot hb hpte⟩, by simp⟩

/-- What `allocuvm` leaves, by its result. -/
inductive AllocEnd (d oldsz newsz : Nat) (m0 : Mem) : Nat → Mem → Prop
  /-- The pages were added. -/
  | grown {m : Mem} (hlt : newsz < KERNBASE) (hle : oldsz ≤ newsz) (hm : m.FreeOk)
      (h : Stocked d (pgRoundUp oldsz / PGSIZE) (max (pgRoundUp oldsz / PGSIZE) (pagesIn newsz))
        none m0 m) :
      AllocEnd d oldsz newsz m0 newsz m
  /-- There was no memory. -/
  | emptied {m : Mem} (hlt : newsz < KERNBASE) (hle : oldsz ≤ newsz)
      (h : Emptied d (pgRoundUp oldsz / PGSIZE) (pagesIn newsz) m0 m)
      (hback : ∀ g, (m0.page g).isFree → (m.page g).isFree = false → m.PartOf d g) :
      AllocEnd d oldsz newsz m0 0 m
  /-- The new size is too large. -/
  | large : AllocEnd d oldsz newsz m0 0 m0
  /-- The new size is smaller. -/
  | smaller (hlt : newsz < oldsz) : AllocEnd d oldsz newsz m0 oldsz m0

theorem allocuvm_spec (hm : m.FreeOk) (ht : m.Tree d)
    (hfree : oldsz ≤ newsz → newsz < KERNBASE →
      m.Freeable d (pgRoundUp oldsz / PGSIZE) (pagesIn newsz))
    (hnew : oldsz ≤ newsz → newsz < KERNBASE → ∀ n, pgRoundUp oldsz / PGSIZE ≤ n →
      n < pagesIn newsz → (m.pte d n).p = false ∨ ∀ s, C (.panic "remap") s)
    (hL : ∀ g, (m.page g).isFree ∨ m.MapsIn d (pgRoundUp oldsz / PGSIZE) (pagesIn newsz) g →
      L.Gives C g) :
    Ends (allocuvm L d oldsz newsz) m (AllocEnd d oldsz newsz m) C := by
  rw [allocuvm]
  by_cases hlarge : KERNBASE ≤ newsz
  · simp only [hlarge, if_true, ends_pure]
    exact .large
  by_cases hsmall : newsz < oldsz
  · simp only [hlarge, hsmall, if_true, if_false, ends_pure]
    exact .smaller hsmall
  simp only [hlarge, hsmall, if_false, ends_bind]
  have hfree := hfree (by omega) (by omega)
  set lo := pgRoundUp oldsz / PGSIZE with hlo
  refine ends_untilSome (fun k s => s.FreeOk ∧ Stocked d lo k none m s) ⟨hm, .nil ht⟩
    (fun k hk hk' s hs => ?_) fun s hs => ?_
  all_goals obtain ⟨hok, hg⟩ := hs
  · refine (allocPage_spec L hg hok ht (by omega) hk (by omega) hfree
      (hnew (by omega) (by omega) k hk (by omega)) hL).imp ?_
    rintro (_ | _) s' ⟨hnone, hsome⟩
    · exact ⟨fun _ => hnone rfl, by simp⟩
    · obtain ⟨hem, hback⟩ := hsome (by simp)
      exact ⟨by simp, fun _ => .emptied (by omega) (by omega) hem hback⟩
  · refine .grown (by omega) (by omega) hok ?_
    rwa [show max lo (pagesIn newsz) = lo + (pagesIn newsz - lo) by omega]

end

/-! ## One page -/

section

variable {strict : Prop} {d loc : Nat} {m : Mem}

/-- What `palloc` leaves, by its result. -/
inductive PallocEnd (d loc : Nat) (m : Mem) : Nat → Mem → Prop
  /-- There is no memory. -/
  | refused : PallocEnd d loc m 0 m.asked
  /-- A page was taken, but there is no memory for a page table. -/
  | lost {m' : Mem} (h : Works d m m') (hm : m'.FreeOk) (hpte : ∀ n, m'.pte d n = m.pte d n)
      (hzero : m.pte d (loc / PGSIZE) = .zero) : PallocEnd d loc m (pgRoundDown loc) m'
  /-- A page was taken and mapped. -/
  | mapped {m' : Mem} {f : Frame} (h : Works d m m') (hm : m'.FreeOk)
      (hf : (m.page f).isFree) (hd : (m'.page f).isData)
      (hpte : ∀ n, m'.pte d n = if n = loc / PGSIZE then ⟨f, true, true, true⟩ else m.pte d n)
      (htaken : ∀ g, (m.page g).isFree → (m'.page g).isFree = false → g = f ∨ m'.PartOf d g) :
      PallocEnd d loc m (pgRoundDown loc) m'

theorem palloc_spec (hm : m.FreeOk) (ht : m.Tree d)
    (hnew : strict → (m.pte d (loc / PGSIZE)).p = false) :
    Ends (palloc d loc) m (PallocEnd d loc m) (Calm True strict) := by
  have hdiv : pgRoundDown loc / PGSIZE = loc / PGSIZE := by
    simp [pgRoundDown]
  simp only [palloc, ends_bind]
  refine kalloc_ends (.inl hm) .refused fun f fs hl hf => ?_
  have hw := (Works.refl ht).grant hf
  have hpte := (ht.grant hf).pte
  have hok := hm.grant hl
  simp only [ends_bind]
  refine (mappages_spec hw.tree (.inl hok) (calm_panic_or fun _ hst => ?_) f true true).imp ?_
  · rw [hpte, hdiv]
    exact hnew hst
  rintro (_ | _) m' ⟨hfail, hsucc⟩
  · obtain ⟨rfl, hzero⟩ := hfail rfl
    rw [hpte, hdiv] at hzero
    exact .lost (hw.trans ((DataOnly.asked _).works hw.tree)) hok.asked hpte hzero
  · obtain ⟨hb, hok', -, -, hpte'⟩ := hsucc rfl
    refine .mapped (f := f) (hw.trans hb.works) (hok' hok) hf
      (hb.works.old_data hw.tree (by simp [Page.isData])) (fun n => ?_) fun g hg hg' => ?_
    · rw [hpte', hdiv, hpte]
    · by_cases hgf : g = f
      · exact .inl hgf
      · refine .inr (hb.taken g ?_ hg')
        simpa [put_of_ne hgf] using hg

/-- What an iteration of `unmappages` at the page `n` leaves, by its result. -/
inductive UnmapEnd (d n : Nat) (last : Bool) (m : Mem) : Option Nat → Mem → Prop
  /-- There is no memory for a page table. -/
  | refused (hzero : m.pte d n = .zero) : UnmapEnd d n last m (some (uint32 (-1))) m.asked
  /-- The page is not mapped any more. -/
  | unmapped {m' : Mem} (h : Builds d m m') (hm : m'.FreeOk)
      (hpte : ∀ k, m'.pte d k = if k = n then .zero else m.pte d k) (hp : (m.pte d n).ppn ≠ 0) :
      UnmapEnd d n last m (if last then some (p2v (m.pte d n).ppn) else none) m'

theorem unmapPage_spec {group : Int} {a : Nat} (last : Bool) (hm : m.FreeOk) (ht : m.Tree d)
    (hzero : strict → (m.pte d (a / PGSIZE)).ppn ≠ 0) :
    Ends (unmapPage group d a last) m (UnmapEnd d (a / PGSIZE) last m) (Calm True strict) := by
  simp only [unmapPage, ends_bind]
  refine (walkpgdir_spec ht (.inl hm)).imp ?_
  rintro (_ | loc) m1 ⟨hnone, hsome⟩
  · rw [(hnone rfl).1]
    exact .refused (hnone rfl).2
  obtain ⟨hb, hok, hp, rfl, -, hpte⟩ := hsome loc rfl
  simp only [ends_bind]
  refine readPte_ends hp (.inl (hb.tree.entries hp)) ?_
  rw [hpte]
  simp only [ends_stopIf, writePte, ends_modify]
  refine ⟨fun hz => calm_panic _ fun _ hst => absurd hz (hzero hst), fun hnz => ?_⟩
  obtain ⟨hb', -, hpte'⟩ := hb.tree.writePte (e := .zero) hp
  have hok' := (hok hm).setEntry (m1.pde d (pdx a)).ppn (ptx a) .zero
  have hptes := fun n => (hpte' n).trans (by rw [hpte])
  rw [ends_onlyIf]
  refine ⟨fun _ => ?_, fun _ => .unmapped (hb.trans hb') hok' hptes hnz⟩
  -- the record of what was detached is none of the pages
  have hbb := hb.trans hb'
  exact .unmapped ⟨⟨hbb.tree.dir, hbb.tree.table⟩, hbb.same, hbb.grows, hbb.parts, hbb.shrinks,
    hbb.taken, hbb.dirs⟩ ⟨hok'.nodup, hok'.mem_iff⟩ hptes hnz

theorem UnmapEnd.exact {n : Nat} {last : Bool} {r : Option Nat} {m' : Mem}
    (h : UnmapEnd d n last m r m') (ht : m.Tree d) : m.Exact m' := by
  cases h with
  | refused => exact .refl m
  | unmapped hb => exact hb.exact ht

/-- The pages that `unmappages` unmaps: the one of the address, and the next one if the address is
not at the start of a page. -/
def Touches (va n : Nat) : Prop :=
  n = va / PGSIZE ∨ (va % PGSIZE ≠ 0 ∧ n = uint32 (pgRoundDown va + PGSIZE) / PGSIZE)

/-- What `unmappages` may have done: some of the pages are not mapped any more. -/
structure Unmaps (d va : Nat) (m m' : Mem) : Prop where
  works : Works d m m'
  free : m'.FreeOk
  pte : ∀ n, m'.pte d n = m.pte d n ∨ (Touches va n ∧ m'.pte d n = .zero)

theorem UnmapEnd.unmaps {va n : Nat} {last : Bool} {r : Option Nat} {m' : Mem}
    (h : UnmapEnd d n last m r m') (hm : m.FreeOk) (ht : m.Tree d) (hn : Touches va n) :
    Unmaps d va m m' := by
  cases h with
  | refused => exact ⟨(DataOnly.asked m).works ht, hm.asked, fun _ => .inl rfl⟩
  | unmapped hb hm' hpte _ =>
    refine ⟨hb.works, hm', fun k => ?_⟩
    rw [hpte]
    by_cases hk : k = n
    · exact .inr ⟨hk ▸ hn, if_pos hk⟩
    · exact .inl (if_neg hk)

theorem Unmaps.trans {va : Nat} {m' m'' : Mem} (h : Unmaps d va m m') (h' : Unmaps d va m' m'') :
    Unmaps d va m m'' := by
  refine ⟨h.works.trans h'.works, h'.free, fun n => ?_⟩
  rcases h'.pte n with heq | hz
  · rw [heq]
    exact h.pte n
  · exact .inr hz

theorem unmappages_spec {group : Int} {va : Nat} (hm : m.FreeOk) (ht : m.Tree d)
    (hzero : strict → ∀ n, Touches va n → (m.pte d n).ppn ≠ 0) :
    Ends (unmappages group d va) m (fun _ m' => Unmaps d va m m') (Calm True strict) := by
  unfold unmappages
  by_cases hal : va % PGSIZE = 0
  · have hn : Touches va (va / PGSIZE) := .inl rfl
    rw [if_pos hal]
    simp only [ends_bind, ends_pure]
    exact (unmapPage_spec true hm ht fun hst => hzero hst _ hn).mono
      (fun _ _ h => h.unmaps hm ht hn) fun _ _ h => h
  have hdiv : pgRoundDown va / PGSIZE = va / PGSIZE :=
    Nat.mul_div_cancel _ (by unfold PGSIZE; omega)
  have hn : Touches va (pgRoundDown va / PGSIZE) := .inl hdiv
  have hn' : Touches va (uint32 (pgRoundDown va + PGSIZE) / PGSIZE) := .inr ⟨hal, rfl⟩
  rw [if_neg hal]
  simp only [ends_bind]
  refine (unmapPage_spec false hm ht fun hst => hzero hst _ hn).imp ?_
  rintro r m1 h
  have hu := h.unmaps hm ht hn
  cases h with
  | refused => exact hu
  | unmapped hb hm1 hpte _ =>
    simp only [Bool.false_eq_true, if_false, ends_bind, ends_pure]
    refine (unmapPage_spec true hm1 hb.tree fun hst => ?_).mono
      (fun _ _ h => hu.trans (h.unmaps hm1 hb.tree hn')) fun _ _ h => h
    -- the two pages are not the same one
    have hne : uint32 (pgRoundDown va + PGSIZE) / PGSIZE ≠ pgRoundDown va / PGSIZE := by
      simp only [uint32, pgRoundDown, PGSIZE]
      omega
    rw [hpte, if_neg hne]
    exact hzero hst _ hn'

end

end Xv6.Memory
