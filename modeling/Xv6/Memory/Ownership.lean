import Xv6.Memory.Images
import Xv6.Memory.Linking

/-! # Memory in order

The invariant of the physical memory: the free list is in order, every page directory is one, and
what user code can reach is ordinary memory. A page is *private* to a range of a directory if it is
mapped nowhere else; only then may the range be freed.

* **`Mem.Ok.change`** — how the invariant survives a change: directories that stay keep it, the
  others have to be looked at. The other results of this file apply it to what the calls of `vm.c`
  do, and say that one directory at most is touched (`Mem.Spares`). -/

namespace Xv6.Memory

open Foundation

namespace Mem

/-- A directory in order, whose user half maps ordinary memory only. -/
structure DirOk (m : Mem) (d : Frame) : Prop where
  tree : m.Tree d
  user : ∀ n < UPAGES, (m.pte d n).p → (m.page (m.pte d n).ppn).isData

/-- **Memory in order.** -/
structure Ok (m : Mem) : Prop where
  free : m.FreeOk
  dirs : ∀ d, (m.page d).isDir → m.DirOk d
  phys : ∀ f, (m.page f).isKernel = false → f * PGSIZE < PHYSTOP

/-- What is mapped in the range is mapped nowhere else. -/
def Private (m : Mem) (d lo hi : Nat) : Prop :=
  ∀ n, lo ≤ n → n < hi → (m.pte d n).p → ∀ d' k, (m.page d').isDir → k < UPAGES →
    (m.pte d' k).p → (m.pte d' k).ppn = (m.pte d n).ppn → d' = d ∧ k = n

/-- Memory is still in order, and everything but the directory `d` and the kernel stack `f` was
spared. -/
structure Spares (m m' : Mem) (d f : Frame) : Prop where
  ok : m'.Ok
  dir : ∀ g ≠ d, ((m'.page g).isDir ↔ (m.page g).isDir)
  pte : ∀ g ≠ d, (m.page g).isDir → ∀ n, m'.pte g n = m.pte g n
  kernel : ∀ g ≠ f, (m.page g).isKernel → (m'.page g).isKernel

theorem Spares.trans {m m' m'' : Mem} {d f : Frame} (h : m.Spares m' d f)
    (h' : m'.Spares m'' d f) : m.Spares m'' d f where
  ok := h'.ok
  dir g hg := (h'.dir g hg).trans (h.dir g hg)
  pte g hg hdir n := (h'.pte g hg ((h.dir g hg).2 hdir) n).trans (h.pte g hg hdir n)
  kernel g hg hker := h'.kernel g hg (h.kernel g hg hker)

end Mem

section

variable {m m' : Mem} {d f lo hi : Nat} {S : Frame → Prop}

variable {g : Frame} {x : Page}

theorem Mem.Tree.part_kernel (h : m.Tree d) (hg : m.PartOf d g) : (m.page g).isKernel = false := by
  rcases hg with rfl | ⟨i, hi, rfl⟩
  · have := h.dir
    cases hp : m.page g <;> simp_all [Page.isDir, Page.isKernel]
  · obtain ⟨es, hes⟩ := h.table i hi
    rw [hes]
    rfl

theorem Page.isData_of_isKernel (h : x.isKernel) : x.isData = false := by
  cases x <;> simp_all [isKernel, isData]

theorem Page.isKernel_of_isDir (h : x.isDir) : x.isKernel = false := by
  cases x <;> simp_all [isKernel, isDir]

theorem Page.isKernel_of_isFree (h : x.isFree) : x.isKernel = false := by
  cases x <;> simp_all [isKernel, isFree]

theorem Page.isKernel_of_isData (h : x.isData) : x.isKernel = false := by
  cases x <;> simp_all [isKernel, isData]

theorem Keeps.kernel (h : Keeps S m m') (hg : (m.page g).isKernel) (hS : ¬ S g) :
    (m'.page g).isKernel := by
  rwa [h.eq (Page.isFree_of_isKernel hg) (Page.isData_of_isKernel hg) hS]

theorem Keeps.dir (h : Keeps S m m') (hg : (m.page g).isDir) (hS : ¬ S g) : (m'.page g).isDir := by
  rwa [h.eq (Page.isFree_of_isDir hg) (Page.isData_of_isDir hg) hS]

namespace Mem

theorem DirOk.keeps (h : m.DirOk d) (hk : Keeps S m m')
    (hS : ∀ g, m.PartOf d g ∨ m.MapsIn d 0 UPAGES g → ¬ S g) : m'.DirOk d := by
  have hpart : ∀ g, m.PartOf d g → ¬ S g := fun g hg => hS g (.inl hg)
  refine ⟨hk.tree h.tree hpart, fun n hn hp => ?_⟩
  rw [hk.pte h.tree hpart] at hp ⊢
  have hd := h.user n hn hp
  rw [(hk _ (Page.isFree_of_isData hd) (hS _ (.inr ⟨n, Nat.zero_le n, hn, hp, rfl⟩))).isData, hd]

namespace Ok

section

variable (h : m.Ok)

include h

/-- **Change**: every directory that is left has stayed, or is in order by itself. -/
theorem change (hf : m'.FreeOk) (hk : Keeps S m m')
    (hdirs : ∀ d, (m'.page d).isDir → m'.DirOk d ∨
      ((m.page d).isDir ∧ ∀ g, m.PartOf d g ∨ m.MapsIn d 0 UPAGES g → ¬ S g))
    (hker : ∀ g, (m.page g).isKernel → S g → g * PGSIZE < PHYSTOP) : m'.Ok := by
  refine ⟨hf, fun d hd => ?_, fun g hg => ?_⟩
  · rcases hdirs d hd with hd | ⟨hd, hS⟩
    · exact hd
    · exact (h.dirs d hd).keeps hk hS
  · by_cases hker' : (m.page g).isKernel
    · refine hker g hker' ?_
      by_contra hS
      simp [hk.kernel hker' hS] at hg
    · exact h.phys g (by simpa using hker')

variable {d' g : Frame}

theorem maps_not_part (hd : (m.page d).isDir) (hd' : (m.page d').isDir)
    (hg : m.MapsIn d 0 UPAGES g) : ¬ m.PartOf d' g := by
  obtain ⟨n, -, hn, hp, rfl⟩ := hg
  intro hpart
  have := (h.dirs d hd).user n hn hp
  simp [((h.dirs d' hd').tree.part hpart).2] at this

theorem apart (hd : (m.page d).isDir) (hd' : (m.page d').isDir) (hne : d' ≠ d)
    (hg : m.PartOf d' g ∨ m.MapsIn d' 0 UPAGES g) : ¬ m.PartOf d g := by
  rcases hg with hg | hg
  · exact (h.dirs d' hd').tree.disjoint (h.dirs d hd).tree hne hg
  · exact h.maps_not_part hd' hd hg

theorem spares (hm : m'.Ok) (hk : Keeps S m m')
    (hdirs : ∀ g, (m'.page g).isDir → g ≠ d → (m.page g).isDir)
    (hS : ∀ g, (m.page g).isDir → g ≠ d → ∀ g', m.PartOf g g' → ¬ S g')
    (hker : ∀ g ≠ f, (m.page g).isKernel → ¬ S g) : m.Spares m' d f where
  ok := hm
  dir g hne := ⟨fun hg => hdirs g hg hne, fun hg => hk.dir hg (hS g hg hne g (.inl rfl))⟩
  pte g hne hg := hk.pte (h.dirs g hg).tree (hS g hg hne)
  kernel g hne hg := hk.kernel hg (hker g hne hg)

theorem data (hd : DataOnly m m') (d f : Frame) : m.Spares m' d f :=
  have hk := hd.keeps fun _ => False
  h.spares (h.change (hd.freeOk h.free) hk (fun d hdir =>
      .inr ⟨(hd.page d).isDir ▸ hdir, fun _ _ h => h⟩) fun _ _ => False.elim) hk
    (fun g hg _ => (hd.page g).isDir ▸ hg) (fun _ _ _ _ _ h => h) fun _ _ _ h => h

theorem restored (hr : Restored m m') (d f : Frame) : m.Spares m' d f :=
  h.spares (h.change hr.free hr.keeps (fun d hd => .inr ⟨hr.dirs d hd, fun _ _ h => h⟩)
      fun _ _ => False.elim) hr.keeps
    (fun g hg _ => hr.dirs g hg) (fun _ _ _ _ _ h => h) fun _ _ _ h => h

theorem building (hb : Building d m m') (hf : m'.FreeOk)
    (huser : ∀ n < UPAGES, (m'.pte d n).p → (m'.page (m'.pte d n).ppn).isData)
    (f : Frame) : m.Spares m' d f := by
  refine h.spares (h.change hf hb.keeps (fun d' hd' => ?_) fun _ _ => False.elim) hb.keeps
    (fun g hg hne => (hb.dirs g hg).resolve_left hne) (fun _ _ _ _ _ h => h) fun _ _ _ h => h
  rcases hb.dirs d' hd' with rfl | hold
  · exact .inl ⟨hb.tree, huser⟩
  · exact .inr ⟨hold, fun _ _ h => h⟩

theorem works (hd : (m.page d).isDir) (hw : Works d m m') (hf : m'.FreeOk)
    (huser : ∀ n < UPAGES, (m'.pte d n).p → (m'.page (m'.pte d n).ppn).isData)
    (f : Frame) : m.Spares m' d f := by
  have hker : ∀ g, (m.page g).isKernel → ¬ m.PartOf d g := fun g hg hpart => by
    simp [(h.dirs d hd).tree.part_kernel hpart] at hg
  refine h.spares (h.change hf hw.keeps (fun d' hd' => ?_) fun g hg hS => absurd hS (hker g hg))
    hw.keeps (fun g hg _ => hw.dirs g hg)
    (fun g hg hne g' hg' => h.apart hd hg hne (.inl hg')) fun g _ => hker g
  by_cases hne : d' = d
  · exact .inl (hne ▸ ⟨hw.tree, huser⟩)
  · exact .inr ⟨hw.dirs d' hd', fun g hg => h.apart hd (hw.dirs d' hd') hne hg⟩

theorem private_apart (hd : (m.page d).isDir) (hhi : hi ≤ UPAGES)
    (hpriv : m.Private d lo hi) (hd' : (m.page d').isDir) (hne : d' ≠ d)
    (hg : m.PartOf d' g ∨ m.MapsIn d' 0 UPAGES g) : ¬ m.MapsIn d lo hi g := by
  rintro ⟨n, hlo, hn, hp, rfl⟩
  rcases hg with hpart | ⟨k, -, hk, hpk, heq⟩
  · exact h.maps_not_part hd hd' ⟨n, Nat.zero_le n, by omega, hp, rfl⟩ hpart
  · exact hne (hpriv n hlo hn hp d' k hd' hk hpk heq).1

theorem freeable (hd : (m.page d).isDir) (hhi : hi ≤ UPAGES)
    (hpriv : m.Private d lo hi) : m.Freeable d lo hi where
  data n _ hn hp := (h.dirs d hd).user n (by omega) hp
  inj n k hlo hn _ hk hp hp' heq :=
    ((hpriv n hlo hn hp d k hd (by omega) hp' heq.symm).2).symm

theorem kernel_apart (hd : (m.page d).isDir) (hhi : hi ≤ UPAGES)
    (hg : (m.page g).isKernel) : ¬ (m.PartOf d g ∨ m.MapsIn d lo hi g) := by
  rintro (hpart | ⟨n, -, hn, hp, rfl⟩)
  · simp [(h.dirs d hd).tree.part_kernel hpart] at hg
  · have := (h.dirs d hd).user n (by omega) hp
    simp [Page.isData_of_isKernel hg] at this

theorem spared (hd : (m.page d).isDir) (hhi : hi ≤ UPAGES) (hpriv : m.Private d lo hi)
    (hd' : (m.page d').isDir) (hne : d' ≠ d) (hg : m.PartOf d' g ∨ m.MapsIn d' 0 UPAGES g) :
    ¬ (m.PartOf d g ∨ m.MapsIn d lo hi g) := by
  rintro (hpart | hmaps)
  · exact h.apart hd hd' hne hg hpart
  · exact h.private_apart hd hhi hpriv hd' hne hg hmaps

theorem emptied (hd : (m.page d).isDir) (hhi : hi ≤ UPAGES)
    (hpriv : m.Private d lo hi) (he : Emptied d lo hi m m') (f : Frame) : m.Spares m' d f := by
  refine h.spares (h.change he.free he.keeps (fun d' hd' => ?_)
      fun g hg hS => absurd hS (h.kernel_apart hd hhi hg)) he.keeps (fun g hg _ => he.dirs g hg)
    (fun g hg hne g' hg' => h.spared hd hhi hpriv hg hne (.inl hg')) fun g _ =>
      h.kernel_apart hd hhi
  have hold := he.dirs d' hd'
  by_cases hne : d' = d
  · subst hne
    refine .inl ⟨he.tree, fun n hn hp => ?_⟩
    have hout : ¬ (lo ≤ n ∧ n < hi) := fun hin => by
      simp [he.inside n hin.1 hin.2] at hp
    rw [he.outside n hout] at hp ⊢
    have hdata := (h.dirs d' hold).user n hn hp
    refine (he.keeps _ (Page.isFree_of_isData hdata) ?_).isData.trans hdata
    rintro (hpart | ⟨k, hlo, hk, hpk, heq⟩)
    · exact h.maps_not_part hold hold ⟨n, Nat.zero_le n, hn, hp, rfl⟩ hpart
    · obtain ⟨-, rfl⟩ := hpriv k hlo hk hpk d' n hold hn hp heq.symm
      exact hout ⟨hlo, hk⟩
  · exact .inr ⟨hold, fun g hg => h.spared hd hhi hpriv hold hne hg⟩

theorem release (hf : (m.page f).isKernel) (hphys : f * PGSIZE < PHYSTOP) (d : Frame) :
    m.Spares (m.release f) d f := by
  have hdir : ∀ {d}, ((m.release f).page d).isDir → (m.page d).isDir := by
    intro d hd
    have hne : d ≠ f := by
      rintro rfl
      simp [Page.isDir] at hd
    rwa [release_page, put_of_ne hne] at hd
  have hnot : ∀ d, (m.page d).isDir → ∀ g, m.PartOf d g ∨ m.MapsIn d 0 UPAGES g → ¬ g = f := by
    rintro d hd g hg rfl
    exact h.kernel_apart hd le_rfl hf hg
  have hk : Keeps (· = f) m (m.release f) := .replace fun g hg => put_of_ne hg
  exact h.spares (h.change (h.free.release (Page.isFree_of_isKernel hf)) hk
      (fun d hd => .inr ⟨hdir hd, hnot d (hdir hd)⟩) fun g _ hg => hg ▸ hphys) hk
    (fun g hg _ => hdir hg) (fun g hg _ g' hg' => hnot g hg g' (.inl hg')) fun g hne _ => hne

theorem take {fs : List Frame} {b : Nat → UInt8} (hl : m.freelist = f :: fs)
    (hf : (m.page f).isFree) (d f' : Frame) :
    m.Spares ((m.asked.grant f).setPage f (.kernel b)) d f' := by
  set m' := (m.asked.grant f).setPage f (.kernel b)
  have hpage : ∀ g ≠ f, m'.page g = m.page g := fun g hg => by simp [m', put_of_ne hg]
  have hdir : ∀ {d}, (m'.page d).isDir → (m.page d).isDir := by
    intro d hd
    by_cases hne : d = f
    · rw [hne] at hd
      simp [m', Page.isDir] at hd
    · rwa [hpage d hne] at hd
  have hk : Keeps (fun _ => False) m m' := fun g hg _ => by
    have hne : g ≠ f := by
      rintro rfl
      simp [hf] at hg
    exact hpage g hne ▸ .refl _
  exact h.spares (h.change ((h.free.grant hl).setPage (by simp [Page.isFree]) rfl) hk
      (fun d hd => .inr ⟨hdir hd, fun _ _ h => h⟩) fun _ _ => False.elim) hk
    (fun g hg _ => hdir hg) (fun _ _ _ _ _ h => h) fun _ _ _ h => h

end

end Ok

/-- **A directory with a private range was taken down.** -/
theorem Ok.torn {i0 : Nat} (h : m.Ok) (hd : (m.page d).isDir) (hpriv : m.Private d lo UPAGES)
    (ht : Torn d lo i0 m m') (f : Frame) : m.Spares m' d f ∧ (m'.page d).isDir = false := by
  have hnotDir : ∀ {g}, (m'.page g).isFree → (m'.page g).isDir = false := Page.isDir_of_isFree
  have hkeeps : Keeps (fun g => m.PartOf d g ∨ m.MapsIn d lo UPAGES g) m m' := fun g _ hS => by
    rw [ht.kept g (fun hp => hS (.inl hp)) fun hp => hS (.inr hp)]
    exact .refl _
  have hgone := hnotDir (ht.freed d (.inl rfl))
  have hdirs : ∀ g, (m'.page g).isDir → g ≠ d → (m.page g).isDir := by
    intro g hg hne
    by_cases hmaps : m.MapsIn d lo UPAGES g
    · simp [hnotDir (ht.freed g (.inr (.inl hmaps)))] at hg
    by_cases hpart : m.PartOf d g
    · by_cases htab : m.TableIn d i0 NPDENTRIES g
      · simp [hnotDir (ht.freed g (.inr (.inr htab)))] at hg
      · obtain ⟨i, es, hes⟩ := ht.left g hpart hne htab
        rw [hes] at hg
        cases hg
    · rwa [ht.kept g hpart hmaps] at hg
  refine ⟨h.spares (h.change ht.free hkeeps (fun g hg => ?_)
      fun g hg hS => absurd hS (h.kernel_apart hd le_rfl hg)) hkeeps hdirs
    (fun g hg hne g' hg' => h.spared hd le_rfl hpriv hg hne (.inl hg'))
    fun g _ => h.kernel_apart hd le_rfl, hgone⟩
  have hne : g ≠ d := fun heq => by simp [heq, hgone] at hg
  have hold := hdirs g hg hne
  exact .inr ⟨hold, fun g' => h.spared hd le_rfl hpriv hold hne⟩

end Mem

end

end Xv6.Memory
