import Xv6.Memory.Images
import Xv6.Memory.Supply

/-! # Growing and shrinking

What `allocuvm` and `deallocuvm` leave of an address space, page by page, for every pattern of
failures of `kalloc`.

* **`Enlarged`**, **`Refused`** — the two outcomes of `allocuvm`.
* **`uvm_resizes`** — `allocuvm` has one of them, the second one only if `kalloc` does not supply
  two pages for each new page; `deallocuvm` frees what is mapped in the range, each page once, and
  nothing else. -/

namespace Xv6.Memory

open Foundation

variable (L : Layout)

/-- **The address space `d` has grown**: the new pages were free, are filled with zeros and are
different from each other; the old ones are as they were. -/
structure Enlarged (d oldsz newsz : Nat) (m m' : Mem) : Prop where
  present : ∀ n < UPAGES, (m'.pte d n).p ↔ n < pagesIn newsz
  old : ∀ n < pagesIn oldsz, m'.pte d n = m.pte d n ∧
    m'.page (m.pte d n).ppn = m.page (m.pte d n).ppn
  new : ∀ n, pagesIn oldsz ≤ n → n < pagesIn newsz → ∃ f ∈ m.freelist,
    m'.pte d n = ⟨f, true, true, true⟩ ∧ f ∉ m'.freelist ∧ m'.page f = .data fun _ => 0
  distinct : ∀ n k, pagesIn oldsz ≤ n → n < pagesIn newsz → pagesIn oldsz ≤ k → k < pagesIn newsz →
    (m'.pte d n).ppn = (m'.pte d k).ppn → n = k

/-- **The address space `d` is as it was**, and so is the free list, but for page tables of `d` that
were taken from it. -/
structure Refused (d : Frame) (m m' : Mem) : Prop where
  mappings : ∀ n, m'.pte d n = m.pte d n ∨ (m'.pte d n).p = false ∧ (m.pte d n).p = false
  back : ∀ f ∈ m.freelist, f ∈ m'.freelist ∨ m'.PartOf d f
  only : ∀ f ∈ m'.freelist, f ∈ m.freelist

section

variable {m : Mem} {d oldsz newsz n : Nat}

/-- **One iteration of the loop of `allocuvm`** takes a page, and a page table for it at most. -/
theorem allocPage_supply :
    Ends (allocPage L d oldsz newsz n) m (fun r m' =>
      (r = some () → ¬ m.Supplies 2) ∧ (r = none → m.Spends 2 m')) (Calm False False) := by
  simp only [allocPage, ends_bind]
  refine kalloc_supply.imp ?_
  rintro (_ | mem) m1 ⟨hnone, hsome⟩
  · rw [ends_bind]
    exact ends_unsafe not_false fun _ _ => ⟨fun _ h => hnone rfl (h.mono (by decide)), by simp⟩
  · simp only [zeroPage, ends_bind, ends_modify]
    have hspent := (hsome (by simp)).2
    refine mappages_supply.imp ?_
    rintro (_ | _) m2 ⟨hfail, hok⟩
    · simp only [Bool.false_eq_true, if_false, ends_bind]
      exact ends_unsafe not_false fun _ _ => ends_unsafe not_false fun _ _ =>
        ⟨fun _ h => hfail rfl (hspent 1 h), by simp⟩
    · exact ⟨by simp, fun _ => hspent.trans (hok rfl)⟩

/-- **`allocuvm` does not fail** if all that it asks for is granted. -/
theorem allocuvm_supplied (hold : oldsz ≤ KERNBASE) (hnew : newsz < KERNBASE) (hpos : 0 < newsz)
    (hle : oldsz ≤ newsz) (hs : m.Supplies (2 * (pagesIn newsz - pagesIn oldsz))) :
    Ends (allocuvm L d oldsz newsz) m (fun r _ => r ≠ 0) (Calm False False) := by
  rw [allocuvm, if_neg (by omega), if_neg (by omega), pgRoundUp_div hold, ends_bind]
  refine (untilSome_supplied (p := fun _ => True) (fun _ _ => (allocPage_supply L).imp
    fun _ _ h => ⟨fun _ hr _ => h.1 hr, h.2⟩) hs).imp ?_
  rintro (_ | _) m' h
  · exact hpos.ne'
  · exact absurd trivial (h _ rfl)

end

section

variable {L} {m : Mem} {d : Frame} {oldsz newsz : Nat} (hm : m.FreeOk) (ht : m.Tree d)
  (huser : ∀ n < UPAGES, (m.pte d n).p → (m.page (m.pte d n).ppn).isData)
  (hL : ∀ f, (m.page f).isFree ∨ m.MapsIn d 0 UPAGES f → L.Frees f)
include hm ht huser hL

/-- **`allocuvm`**: nothing is mapped behind the old size, so that there is nothing to find. -/
theorem allocuvm_enlarges (hnew : newsz < KERNBASE)
    (hpages : ∀ n < UPAGES, (m.pte d n).p ↔ n < pagesIn oldsz) (hle : oldsz ≤ newsz) :
    ∃ r m', Returns (allocuvm L d oldsz newsz) m r m' ∧
      (r = newsz ∧ Enlarged d oldsz newsz m m' ∨ r = 0 ∧ Refused d m m') := by
  have hU := pagesIn_le.2 hnew.le
  have hmono := pagesIn_mono hle
  have hlo := pgRoundUp_div (hle.trans hnew.le)
  have hnone : ∀ n, pgRoundUp oldsz / PGSIZE ≤ n → n < pagesIn newsz → (m.pte d n).p = false := by
    intro n hn hn'
    rw [hlo] at hn
    simpa using mt (hpages n (by omega)).1 (by omega)
  obtain ⟨r, m', hend, hret⟩ := (allocuvm_spec L (C := fun _ _ => False) hm ht
    (fun _ _ => ⟨fun n hn hn' hp => by simp [hnone n hn hn'] at hp,
      fun n k hn hn' _ _ hp => by simp [hnone n hn hn'] at hp⟩)
    (fun _ _ n hn hn' => .inl (hnone n hn hn'))
    fun f hf => .inl (hL f (hf.imp_right fun ⟨n, _, hn, h⟩ => ⟨n, Nat.zero_le n, by omega, h⟩))
    ).and_returns.exists_of_no_stop
  refine ⟨r, m', hret, ?_⟩
  clear hret
  cases hend with
  | grown _ _ hm' h =>
    rw [hlo, max_eq_right hmono] at h
    refine .inl ⟨rfl, fun n hn => ?_, fun n hn => ⟨h.old n (by omega), ?_⟩,
      fun n hn hn' => ?_, h.inj⟩
    · by_cases hin : pagesIn oldsz ≤ n ∧ n < pagesIn newsz
      · obtain ⟨f, hf, -⟩ := h.new n hin.1 hin.2
        simp [hf, hin.2]
      · rw [h.old n hin, hpages n hn]
        omega
    · exact h.exact _ (huser n (by omega) ((hpages n (by omega)).2 hn))
    · obtain ⟨f, hf, hfree, hdata⟩ := h.new n hn hn'
      have hzero := h.zero n hn hn'
      rw [hf] at hzero
      refine ⟨f, (hm.mem_iff f).2 hfree, hf, ?_, hzero⟩
      rw [hm'.mem_iff, Page.isFree_of_isData hdata]
      exact Bool.false_ne_true
  | emptied _ _ h hback =>
    refine .inr ⟨rfl, fun n => ?_, fun f hf => ?_, fun f hf => ?_⟩
    · by_cases hin : pgRoundUp oldsz / PGSIZE ≤ n ∧ n < pagesIn newsz
      · exact .inr ⟨h.inside n hin.1 hin.2, hnone n hin.1 hin.2⟩
      · exact .inl (h.outside n hin)
    · rw [h.free.mem_iff]
      by_cases hf' : (m'.page f).isFree
      · exact .inl hf'
      · exact .inr (hback f ((hm.mem_iff f).1 hf) (by simpa using hf'))
    · rcases h.freed f ((h.free.mem_iff f).1 hf) with hfree | ⟨n, hn, hn', hp, -⟩
      · exact (hm.mem_iff f).2 hfree
      · simp [hnone n hn hn'] at hp
  | large => exact .inr ⟨rfl, fun n => .inl rfl, fun f => .inl, fun f => id⟩
  | smaller hlt => omega

omit hm in
theorem deallocuvm_sweeps (hold : oldsz ≤ KERNBASE) (hlt : newsz < oldsz) :
    ∃ m', Returns (deallocuvm L d oldsz newsz) m newsz m' ∧
      Swept d (pgRoundUp newsz / PGSIZE) (pagesIn oldsz) m m' := by
  have hU := pagesIn_le.2 hold
  obtain ⟨r, m', ⟨-, hend⟩, hret⟩ := (deallocuvm_swept L (C := fun _ _ => False) oldsz newsz ht
    fun _ g ⟨n, _, hn, hp, hg⟩ => ⟨fun hpart => by
      have := huser n (hn.trans_le hU) hp
      simp [hg, (ht.part hpart).2] at this,
      .inl (hL g (.inr ⟨n, Nat.zero_le n, hn.trans_le hU, hp, hg⟩))⟩).and_returns.exists_of_no_stop
  obtain ⟨rfl, hswept⟩ := hend hlt
  exact ⟨m', hret, hswept⟩

/-- **Growing and shrinking** an address space whose pages, like those on the free list, are pages
that `kfree` accepts. -/
theorem uvm_resizes (hold : oldsz < KERNBASE) (hnew : newsz < KERNBASE) :
    ((∀ n < UPAGES, (m.pte d n).p ↔ n < pagesIn oldsz) → oldsz ≤ newsz → 0 < newsz →
      ∃ r m', Returns (allocuvm L d oldsz newsz) m r m' ∧
        (r = newsz ∧ Enlarged d oldsz newsz m m' ∨
          r = 0 ∧ Refused d m m' ∧ ¬ m.Supplies (2 * (pagesIn newsz - pagesIn oldsz)))) ∧
    (newsz < oldsz → ∃ m', Returns (deallocuvm L d oldsz newsz) m newsz m' ∧
      Swept d (pgRoundUp newsz / PGSIZE) (pagesIn oldsz) m m') := by
  refine ⟨fun hpages hle hpos => ?_, fun hlt => deallocuvm_sweeps ht huser hL hold.le hlt⟩
  obtain ⟨r, m', hret, hend⟩ := allocuvm_enlarges hm ht huser hL hnew hpages hle
  refine ⟨r, m', hret, hend.imp_right fun ⟨hr, href⟩ => ⟨hr, href, fun hs => ?_⟩⟩
  exact (allocuvm_supplied L hold.le hnew hpos hle hs).of_returns hret hr

end

/-- A memory with one page of user memory and three free pages. -/
def onePage : Mem where
  page f :=
    if f = 1 then .dir fun i => if i = 0 then ⟨2, true, true, true⟩ else .zero
    else if f = 2 then .table 1 0 fun n => if n = 0 then ⟨3, true, true, true⟩ else .zero
    else if f = 3 then .data fun _ => 7
    else if f ∈ [4, 5, 6] then .free fun _ => 1 else .kernel fun _ => 0
  freelist := [4, 5, 6]
  detached _ := none
  refuse := []

theorem onePage_pte (n : Nat) :
    onePage.pte 1 n = if n = 0 then ⟨3, true, true, true⟩ else .zero := by
  have hpde : onePage.pde 1 (n / 1024) = if n / 1024 = 0 then ⟨2, true, true, true⟩ else .zero :=
    rfl
  rw [Mem.pte, hpde]
  by_cases hn : n / 1024 = 0
  · rw [if_pos hn, if_pos rfl]
    show (if n % 1024 = 0 then (⟨3, true, true, true⟩ : Pte) else .zero) = _
    rw [show n % 1024 = n by omega]
  · rw [if_neg hn, if_neg (show n ≠ 0 by omega)]
    rfl

theorem onePage_isFree (f : Frame) : (onePage.page f).isFree ↔ f ∈ [4, 5, 6] := by
  unfold onePage
  dsimp only
  split_ifs with h1 h2 h3 h4 <;> simp_all [Page.isFree]

theorem onePage_tree : onePage.Tree 1 := by
  refine ⟨rfl, fun i hi => ?_⟩
  have hpde : onePage.pde 1 i = if i = 0 then ⟨2, true, true, true⟩ else .zero := rfl
  rw [hpde] at hi ⊢
  split at hi
  · rename_i hzero
    subst hzero
    exact ⟨_, rfl⟩
  · cases hi

theorem onePage_present (n : Nat) : (onePage.pte 1 n).p ↔ n < pagesIn 1 := by
  rw [onePage_pte]
  split <;> simp [pagesIn, PGSIZE, *]

theorem onePage_ppn {n : Nat} (hp : (onePage.pte 1 n).p) : (onePage.pte 1 n).ppn = 3 := by
  rw [onePage_pte] at hp ⊢
  split at hp <;> simp_all

theorem onePage_frees (f : Frame) (hf : (onePage.page f).isFree ∨ onePage.MapsIn 1 0 UPAGES f) :
    (⟨0, 0, []⟩ : Layout).Frees f := by
  have hf : f ∈ [3, 4, 5, 6] := by
    rcases hf with hf | ⟨n, -, -, hp, rfl⟩
    · exact List.mem_cons_of_mem 3 ((onePage_isFree f).1 hf)
    · simp [onePage_ppn hp]
  simp only [List.mem_cons, List.not_mem_nil, or_false] at hf
  rcases hf with rfl | rfl | rfl | rfl <;> exact ⟨by decide, by decide, by decide⟩

/-- **A second page** is mapped, and the first one is given back. -/
theorem uvm_resizes_one :
    (∃ m', Returns (allocuvm ⟨0, 0, []⟩ 1 1 4097) onePage 4097 m' ∧ Enlarged 1 1 4097 onePage m') ∧
      ∃ m', Returns (deallocuvm ⟨0, 0, []⟩ 1 1 0) onePage 0 m' ∧ Swept 1 0 1 onePage m' := by
  have hm : onePage.FreeOk := ⟨by decide, fun f => (onePage_isFree f).symm⟩
  have huser : ∀ n < UPAGES, (onePage.pte 1 n).p → (onePage.page (onePage.pte 1 n).ppn).isData :=
    fun n _ hp => by rw [onePage_ppn hp]; rfl
  have hsize : 1 < KERNBASE := by decide
  constructor
  · obtain ⟨r, m', hret, hend⟩ := (uvm_resizes hm onePage_tree huser onePage_frees hsize
      (show 4097 < KERNBASE by decide)).1 (fun n _ => onePage_present n) (by decide) (by decide)
    rcases hend with ⟨rfl, hlarge⟩ | ⟨-, -, hnot⟩
    · exact ⟨m', hret, hlarge⟩
    · -- three pages are free, and the second page needs two of them at most
      exact absurd (by decide) hnot
  · exact (uvm_resizes hm onePage_tree huser onePage_frees hsize (by decide)).2 (by decide)

end Xv6.Memory
