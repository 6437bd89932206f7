import Xv6.Memory.Isolation

/-! # The pages of a thread

What `thread_creator` takes from the free list, and what `thread_join` gives back. Between the
system calls of the two nothing happens to memory but stores (`Machine.Quiet`).

* **`thread_life_leaks_nothing_iff`** — all pages come back exactly if the stacks of the creator and
  of the joiner are in the second page of their address spaces.
* **`thread_life_leaks`** — a life of a thread that costs its page tables. -/

namespace Xv6.Memory

open Foundation

variable (L : Layout)

/-! ## Quiet runs -/

/-- A step that takes no page and gives none back. -/
def Machine.Quiet (_ : Machine) (e : Machine.Event) : Prop :=
  match e.1 with
  | .table _ | .setEsp _ _ | .store _ _ _ => True
  | _ => False

instance (s : Machine) : (e : Machine.Event) → Decidable (s.Quiet e)
  | (.table _, _) | (.setEsp _ _, _) | (.store _ _ _, _) => isTrue trivial
  | (.userinit, _) | (.fork _, _) | (.threadCreate _ _, _) | (.sbrk _ _, _) | (.getpage _, _)
  | (.detachpage _ _, _) | (.exec _ _ _, _) | (.diagwait _, _) | (.threadJoin _ _, _) => isFalse id

/-- Memory was only stored to, and every process has what it had. -/
structure Still (s s' : Machine) : Prop where
  wf : s'.kernel.Wf
  mem : DataOnly s.mem s'.mem
  pgdir : ∀ q, (s'.kernel.proc q).pgdir = (s.kernel.proc q).pgdir
  kstack : ∀ q, (s'.kernel.proc q).kstack = (s.kernel.proc q).kstack
  sz : ∀ q, (s'.kernel.proc q).sz = (s.kernel.proc q).sz

theorem Still.trans {s s' s'' : Machine} (h : Still s s') (h' : Still s' s'') : Still s s'' :=
  ⟨h'.wf, h.mem.trans h'.mem, fun q => (h'.pgdir q).trans (h.pgdir q),
    fun q => (h'.kstack q).trans (h.kstack q), fun q => (h'.sz q).trans (h.sz q)⟩

theorem still_step {s s' : Machine} (h : s.kernel.Wf) {e : Machine.Event} (hq : s.Quiet e)
    (hs : s.step L e = some s') : Still s s' := by
  obtain ⟨a, refuse⟩ := e
  have hret := Machine.step_returns L hs
  have hdata : DataOnly s.mem (s.start refuse).mem := ⟨fun _ => .refl _, rfl⟩
  have hsame : Still s (s.start refuse) :=
    ⟨h, hdata, fun _ => rfl, fun _ => rfl, fun _ => rfl⟩
  suffices Ends (Action.code L a) (s.start refuse) (fun _ s' => Still s s') (Calm False False) from
    this.of_returns hret
  cases a with
  | table e =>
    dsimp only [Action.code]
    split
    · refine tableStep_ends fun k hk => ?_
      have hspace := fun q => Space.mk.injEq .. ▸ Kernel.plain_space h ‹_› hk q
      exact ⟨Kernel.step_wf h hk, hdata, fun q => (hspace q).1, fun q => (hspace q).2.1,
        fun q => (hspace q).2.2.1⟩
    · exact calm_disabled _ _ s
  | setEsp c esp =>
    simp only [Action.code, ends_bind]
    refine caller_ends fun cur _ _ => ?_
    have hfield := fun {γ : Type} (field : Proc → γ)
      (hf : ∀ x, field (withEsp (uint32 esp) x) = field x) =>
        Kernel.modify_field field hf s.kernel cur
    exact ⟨h.modify cur (fun _ => rfl) fun _ => rfl, hdata, hfield (·.pgdir) fun _ => rfl,
      hfield (·.kstack) fun _ => rfl, hfield (·.sz) fun _ => rfl⟩
  | store c va b =>
    simp only [Action.code, userStore, ends_bind]
    refine caller_ends fun cur _ _ => ?_
    simp only [ends_procOf, ends_get, ends_stopIf, ends_onMem]
    refine ⟨fun _ => calm_disabled _ _ s, fun _ => ?_⟩
    exact (pokeByte_spec False.elim).imp (fun _ _ hd => ⟨h, hdata.trans hd, fun _ => rfl,
      fun _ => rfl, fun _ => rfl⟩)
  | _ => exact hq.elim

theorem still_run {s s' : Machine} (h : s.kernel.Wf)
    (hrun : Run (Machine.step L) Machine.Quiet s s') : Still s s' :=
  Run.invariant (Still s) ⟨h, .refl _, fun _ => rfl, fun _ => rfl, fun _ => rfl⟩
    (fun _ _ _ hs hq hstep => hs.trans (still_step L hs.wf hq hstep)) hrun

/-! ## The page for the stack -/

/-- The page `f` was taken from the free list since `m0`; otherwise only page tables of the
directory `pd` were. -/
structure Lent (pd f : Frame) (m0 m : Mem) : Prop where
  was : (m0.page f).isFree
  data : (m.page f).isData
  shrinks : ∀ g, (m.page g).isFree → (m0.page g).isFree
  taken : ∀ g, (m0.page g).isFree → (m.page g).isFree = false → g = f ∨ m.PartOf pd g

section

variable {pd f : Frame} {m0 m m' : Mem}

theorem Lent.builds (h : Lent pd f m0 m) (ht : m.Tree pd) (hb : Builds pd m m') :
    Lent pd f m0 m' where
  was := h.was
  data := hb.works.old_data ht h.data
  shrinks g hg := h.shrinks g (hb.shrinks g hg)
  taken g hg hg' := by
    by_cases hm : (m.page g).isFree
    · exact .inr (hb.taken g hm hg')
    · exact (h.taken g hg (by simpa using hm)).imp_right (hb.grows g)

theorem Lent.stores (h : Lent pd f m0 m) (hd : DataOnly m m') : Lent pd f m0 m' where
  was := h.was
  data := by rw [(hd.page f).isData, h.data]
  shrinks g hg := h.shrinks g (by rwa [(hd.page g).isFree] at hg)
  taken g hg hg' := by
    rw [(hd.page g).isFree] at hg'
    exact (h.taken g hg hg').imp_right (hd.partOf pd g).2

end

section

variable {s s' : Machine} {c : Nat} {cur : Slot}

theorem getpage_returns (hcur : s.kernel.cpu c = some cur) (h : Returns (getpage c) s () s') :
    ∃ r, Returns (palloc (s.kernel.proc cur).pgdir (pgRoundUp (s.kernel.proc cur).sz))
        s.mem r s'.mem ∧
      s'.kernel = s.kernel.modify cur fun x => { x with tf := { x.tf with eax := r } } := by
  simp only [getpage, returns_bind, returns_procOf, returns_onMem, returns_modify] at h
  obtain ⟨cur', s1, hcaller, x, s2, ⟨rfl, rfl⟩, r, s3, ⟨m', hpalloc, rfl⟩, rfl⟩ := h
  obtain ⟨hcur', rfl⟩ := caller_returns hcaller
  obtain rfl : cur = cur' := Option.some.inj (hcur.symm.trans hcur')
  exact ⟨r, hpalloc, rfl⟩

/-- **`getpage`** that does not fail: there is a page for the process, unless it could not be
mapped. -/
theorem getpage_lent (h : s.Ok False) (hcur : s.kernel.cpu c = some cur)
    (hret : Returns (getpage c) s () s') (hne : (s'.kernel.proc cur).tf.eax ≠ 0) :
    let pd := (s.kernel.proc cur).pgdir
    let n := pagesIn (s.kernel.proc cur).sz
    (s'.kernel.proc cur).tf.eax = n * PGSIZE ∧ (∀ k ≠ n, s'.mem.pte pd k = s.mem.pte pd k) ∧
      (s'.mem.pte pd n = .zero ∨ Lent pd (s'.mem.pte pd n).ppn s.mem s'.mem) := by
  intro pd n
  have hheld := h.held cur (h.used hcur)
  have hdir := h.mem.dirs _ hheld.dir
  have hn : pgRoundUp (s.kernel.proc cur).sz / PGSIZE = n := pgRoundUp_div hheld.size
  obtain ⟨r, hpalloc, hkernel⟩ := getpage_returns hcur hret
  have hr : (s'.kernel.proc cur).tf.eax = r := by simp [hkernel]
  rw [hr] at hne ⊢
  generalize s'.mem = m' at hpalloc ⊢
  cases (@palloc_spec False _ _ _ h.mem.free hdir.tree False.elim).of_returns hpalloc with
  | refused => exact absurd rfl hne
  | lost hw hm hpte hzero =>
    rw [hn] at hzero
    exact ⟨by rw [pgRoundDown, hn], fun k _ => hpte k, .inl ((hpte n).trans hzero)⟩
  | mapped hw hm hf hd hpte htaken =>
    rw [hn] at hpte
    refine ⟨by rw [pgRoundDown, hn], fun k hk => (hpte k).trans (if_neg hk), .inr ?_⟩
    rw [hpte n, if_pos rfl]
    exact ⟨hf, hd, hw.shrinks, htaken⟩

theorem detachpage_returns {loc : Nat} (hcur : s.kernel.cpu c = some cur)
    (h : Returns (detachpage c loc) s () s') :
    ∃ r, s'.kernel = s.kernel.modify cur (fun x => { x with tf := { x.tf with eax := r } }) ∧
      (argint (s.kernel.proc cur) → Returns (unmappages (s.kernel.proc cur).firstPid
        (s.kernel.proc cur).pgdir (uint32 loc)) s.mem r s'.mem) ∧
      (¬ argint (s.kernel.proc cur) → r = uint32 (-1)) := by
  simp only [detachpage, returns_bind, returns_procOf] at h
  obtain ⟨cur', s1, hcaller, x, s2, ⟨rfl, rfl⟩, hunmap⟩ := h
  obtain ⟨hcur', rfl⟩ := caller_returns hcaller
  obtain rfl : cur = cur' := Option.some.inj (hcur.symm.trans hcur')
  split at hunmap
  all_goals
    rename_i harg
    simp only [returns_bind, returns_onMem, returns_pure, returns_modify] at hunmap
  · obtain ⟨r, s3, ⟨m', hunmap, rfl⟩, rfl⟩ := hunmap
    exact ⟨r, rfl, fun _ => hunmap, fun hnot => absurd harg hnot⟩
  · obtain ⟨r, s3, ⟨hr, rfl⟩, rfl⟩ := hunmap
    exact ⟨r, rfl, fun h => absurd h harg, fun _ => hr⟩

theorem detachpage_end {loc : Nat} (h : s.Ok False) (hcur : s.kernel.cpu c = some cur)
    (hret : Returns (detachpage c loc) s () s') (hal : uint32 loc % PGSIZE = 0)
    (harg : argint (s.kernel.proc cur)) :
    UnmapEnd (s.kernel.proc cur).pgdir (uint32 loc / PGSIZE) true s.mem
      (some (s'.kernel.proc cur).tf.eax) s'.mem := by
  have hdir := h.mem.dirs _ (h.held cur (h.used hcur)).dir
  obtain ⟨r, hkernel, hunmap, -⟩ := detachpage_returns hcur hret
  have hr : (s'.kernel.proc cur).tf.eax = r := by simp [hkernel]
  have hunmap := hunmap harg
  rw [← hr] at hunmap
  unfold unmappages at hunmap
  rw [if_pos hal] at hunmap
  obtain ⟨r', m', hunmap, heq⟩ := returns_bind.1 hunmap
  obtain ⟨hval, hmem⟩ := returns_pure.1 heq
  rw [hmem]
  have hend := (unmapPage_spec true h.mem.free hdir.tree False.elim).of_returns hunmap
  -- the last page gives a result in any case
  have hsome : r' = some (s'.kernel.proc cur).tf.eax := by
    cases hend with
    | refused => rw [hval, Option.getD_some]
    | unmapped => rw [hval, if_pos rfl, Option.getD_some]
  rwa [hsome] at hend

/-- **`detachpage`** of one page that does not fail: the page is not mapped any more, and the result
is its address in the kernel. -/
theorem detachpage_unmaps {loc : Nat} (h : s.Ok False) (hcur : s.kernel.cpu c = some cur)
    (hret : Returns (detachpage c loc) s () s') (hal : uint32 loc % PGSIZE = 0)
    (hne : (s'.kernel.proc cur).tf.eax ≠ uint32 (-1)) :
    let pd := (s.kernel.proc cur).pgdir
    let n := uint32 loc / PGSIZE
    Builds pd s.mem s'.mem ∧ (s.mem.pte pd n).ppn ≠ 0 ∧
      (s'.kernel.proc cur).tf.eax = p2v (s.mem.pte pd n).ppn ∧
      ∀ k ≠ n, s'.mem.pte pd k = s.mem.pte pd k := by
  intro pd n
  have harg : argint (s.kernel.proc cur) := by
    by_contra hnot
    obtain ⟨r, hkernel, -, hr⟩ := detachpage_returns hcur hret
    exact hne (by simp [hkernel, hr hnot])
  have hend := detachpage_end h hcur hret hal harg
  generalize hr : some (s'.kernel.proc cur).tf.eax = r at hend
  generalize s'.mem = m' at hend ⊢
  cases hend with
  | refused => exact absurd (Option.some.inj hr) hne
  | unmapped hb hm hpte hp =>
    rw [if_pos rfl] at hr
    exact ⟨hb, hp, Option.some.inj hr, fun k hk => (hpte k).trans (if_neg hk)⟩

end

/-! ## Making the thread -/

theorem uint32_p2v_add {n off : Nat} (hn : n * PGSIZE < PHYSTOP) (hoff : off < PGSIZE) :
    uint32 ((p2v n + off : Nat) : Int) = n * PGSIZE + KERNBASE + off ∧
      n * PGSIZE + KERNBASE + off < 2 ^ 32 := by
  have h32 : n * PGSIZE + KERNBASE + off < 2 ^ 32 :=
    (Nat.add_lt_add (Nat.add_lt_add_right hn KERNBASE) hoff).trans_le (by decide)
  have hp2v : p2v n = n * PGSIZE + KERNBASE :=
    uint32_eq (by simp) ((Nat.le_add_right _ _).trans_lt h32)
  rw [hp2v]
  exact ⟨uint32_eq rfl h32, h32⟩

theorem v2p_p2v {n off : Nat} (hn : n * PGSIZE < PHYSTOP) (hoff : off < PGSIZE) :
    v2p (pgRoundDown (uint32 ((p2v n + off : Nat) : Int))) = n := by
  obtain ⟨hu, h32⟩ := uint32_p2v_add hn hoff
  have hdown : pgRoundDown (n * PGSIZE + KERNBASE + off) = n * PGSIZE + KERNBASE := by
    unfold pgRoundDown PGSIZE KERNBASE at *
    omega
  rw [hu, hdown, v2p_eq ((Nat.le_add_right _ _).trans_lt h32), if_pos (Nat.le_add_left _ _),
    Nat.add_sub_cancel]
  exact Nat.mul_div_cancel n (by decide)

/-- **`thread_create`** with a page of ordinary memory: how the pages of the new thread came to
be. -/
theorem threadCreate_links {s s' : Machine} {c stack : Nat} {cur np : Slot} (h : s.Ok False)
    (hcur : s.kernel.cpu c = some cur) (hret : Returns (sysThreadCreate L c stack) s () s')
    (hnp : (s.kernel.proc np).state = .unused) (hnew : (s'.kernel.proc np).state = .runnable)
    (hdata : (s.mem.page (v2p (pgRoundDown (uint32 stack)))).isData) (hal : uint32 stack % 4 = 0) :
    let x := s.kernel.proc cur
    s'.Ok False ∧ ∃ m, Took (s'.kernel.proc np).kstack s.mem m ∧
      Linked L x.pgdir x.sz (pgRoundDown x.tf.esp) (uint32 stack)
        (s'.kernel.proc np).pgdir m s'.mem := by
  intro x
  have hheld := h.held cur (h.used hcur)
  obtain ⟨m1, m2, r, hmade⟩ := threadCreate_made L hcur (h.wf.onCpu c cur hcur).1 hret hnp hnew
  -- `linkuvm` did not fail, so that it did not fail after it had linked pages
  have hsafe : LinkSafe L s cur (uint32 stack) :=
    ⟨fun _ => ⟨hdata, hal⟩, fun f m d m1 m2 hkalloc hsetup hlink =>
      absurd hlink (hmade.passed f m d m1 m2 hkalloc hsetup)⟩
  have hok := @threadCreate_ok L _ _ _ h stack fun cur' hcur' =>
    Option.some.inj (hcur.symm.trans hcur') ▸ hsafe
  exact ⟨hok.of_returns hret, m1, hmade.took, hmade.linked (h.mem.dirs _ hheld.dir).tree hheld.esp⟩

/-! ## Joining the thread -/

/-- **The zombie with the kernel stack `fk` and the directory `d` was joined.** -/
structure Joined (fk d lo i0 : Nat) (m m' : Mem) : Prop where
  freelist : ∀ g, g ∈ m'.freelist ↔ g ∈ m.freelist ∨ g = fk ∨ m.MapsIn d lo UPAGES g ∨
    m.TableIn d i0 NPDENTRIES g ∨ g = d
  kept : ∀ g, g ≠ fk → ¬ m.MapsIn d lo UPAGES g → ¬ m.PartOf d g → m'.page g = m.page g

theorem freethread_joined {m : Mem} {d fk stackBeg newsz : Nat}
    (hnew : newsz = uint32 ((stackBeg : Int) - PGSIZE)) (hd : m.DirOk d)
      (hfk : (m.page fk).isKernel) :
    Ends (freethread L d stackBeg) (m.release fk)
      (fun _ m' => Joined fk d (firstPage newsz) (min newsz KERNBASE) m m') (Calm True False) := by
  -- the kernel stack is neither in the directory nor mapped
  have hs := hd.tree.release (f := fk) fun hg => by simp [hd.tree.part_kernel hg] at hfk
  have hmaps : ∀ lo hi g, (m.release fk).MapsIn d lo hi g ↔ m.MapsIn d lo hi g := fun lo hi g => by
    simp only [Mem.MapsIn, hs.pte]
  have htabs : ∀ lo hi g, (m.release fk).TableIn d lo hi g ↔ m.TableIn d lo hi g :=
      fun lo hi g => by
    simp only [Mem.TableIn, hs.pde]
  refine (freethread_steps L hnew hs.tree fun g hg hg' => ?_).imp ?_
  · rw [hmaps] at hg
    rw [hs.part] at hg'
    obtain ⟨n, -, hn, hp, rfl⟩ := hg
    have := hd.user n hn hp
    simp [(hd.tree.part hg').2] at this
  rintro _ m' ⟨m1, m2, hswept, hfreed, rfl⟩
  have htab1 : ∀ lo hi g, m1.TableIn d lo hi g ↔ m.TableIn d lo hi g := fun lo hi g => by
    rw [← htabs]
    simp only [Mem.TableIn, hswept.pde]
  refine ⟨fun g => ?_, fun g hne hmap hg => ?_⟩
  · rw [Mem.release_freelist, List.mem_cons, hfreed.freelist, htab1, hswept.freelist,
      List.mem_append, List.mem_reverse, Mem.mem_mapped, hmaps,
      Mem.release_freelist, List.mem_cons]
    tauto
  · have hgd : g ≠ d := fun heq => hg (.inl heq)
    rw [Mem.release_page, put_of_ne hgd, hfreed.kept g, hswept.kept g (mt hs.part.1 hg)
      (mt (hmaps _ _ g).1 hmap), Mem.release_page, put_of_ne hne]
    rw [htab1]
    rintro ⟨i, -, -, hp, heq⟩
    exact hg (.inr ⟨i, hp, heq⟩)

theorem threadJoin_joined {s s' : Machine} {c : Nat} {tid : Int} {j np : Slot} (h : s.Ok False)
    (hcur : s.kernel.cpu c = some j) (hret : Returns (threadJoin L c tid) s () s')
    (hz : (s.kernel.proc np).state = .zombie) (hun : (s'.kernel.proc np).state = .unused)
    {newsz : Nat} (hnew : newsz = uint32 ((pgRoundDown (s.kernel.proc j).tf.esp : Int) - PGSIZE)) :
    Joined (s.kernel.proc np).kstack (s.kernel.proc np).pgdir (firstPage newsz) (min newsz KERNBASE)
      s.mem s'.mem := by
  have hused : ∀ k : Kernel, (k.proc np).space = (s.kernel.proc np).space →
      (k.proc np).state ≠ .unused := fun k hk hu => by
    have := congrArg Space.used hk
    simp [Proc.space, hz, hu, ProcState.used] at this
  have hends : Ends (threadJoin L c tid) s (fun _ s' => (s'.kernel.proc np).state = .unused →
      Joined (s.kernel.proc np).kstack (s.kernel.proc np).pgdir (firstPage newsz)
          (min newsz KERNBASE)
        s.mem s'.mem) (Calm False False) := by
    simp only [threadJoin, ends_bind]
    refine myproc_ends fun j' hcur' => ?_
    obtain rfl : j = j' := Option.some.inj (hcur.symm.trans hcur')
    simp only [ends_get, ends_onlyIf]
    refine ⟨fun _ => ?_, fun _ hu => absurd hu (hused _ rfl)⟩
    have hreaped : ∀ k', s.kernel.step (.call c (.threadJoin tid)) = some k' →
        Kernel.Reaped s.kernel k' (joinReaps s.kernel j tid) :=
      fun k' hk => Kernel.threadJoin_reaped h.wf hcur hk
    rcases hscan : joinReaps s.kernel j tid with _ | z
    · refine tableStep_ends fun k' hk hu => absurd hu (hused _ ((hreaped k' hk).other np ?_))
      simp [hscan]
    simp only [reap, ends_bind, ends_procOf]
    refine tableStep_ends fun k' hk => ?_
    simp only [ends_onMem]
    by_cases hne : z = np
    swap
    · -- another zombie was reaped
      refine ends_of_forall_returns (fun _ m' _ => ?_) fun _ _ h => h.elim
      refine ends_of_forall_returns (fun _ m'' _ hu => ?_) fun _ _ h => h.elim
      refine absurd hu (hused k' ((hreaped k' hk).other np ?_))
      rw [hscan]
      exact fun heq => hne (Option.some.inj heq)
    subst hne
    have hheld := h.held z (by rw [Machine.Used, hz]; rfl)
    have hdir := h.mem.dirs _ hheld.dir
    refine kfree_ends L ?_
    exact (freethread_joined L hnew hdir hheld.stack).mono (fun _ _ h _ => h) fun _ _ _ h => h.elim
  exact hends.of_returns hret hun

/-! ## What the thread has cost -/

section

variable {L : Layout} {pd sz orig stack : Nat} {d : Frame} {m0 m m' : Mem}

theorem Linked.data (hd : DataOnly m m') (h : Linked L pd sz orig stack d m0 m) :
    Linked L pd sz orig stack d m0 m' :=
  h.imp (fun h => ⟨h.1.data hd, h.2⟩) fun h => ⟨h.1.data hd, h.2⟩

theorem Linked.linking (h : Linked L pd sz orig stack d m0 m) :
    ∃ k top, Linking L pd orig k top none d m0 m := by
  rcases h with h | h
  · exact ⟨_, _, h.1⟩
  · exact ⟨_, _, h.1⟩

end

/-- **The pages of a thread** with the stack page `f`, the kernel stack `fk` and the directory `d`:
since `m0` the page `f` was taken for it (`m1`), then `fk` (`m2`), and then `d` was built. -/
structure Spending (L : Layout) (pd f fk d sz orig k : Nat) (top : Pte) (m0 m1 m2 m : Mem) :
    Prop where
  start : m0.DirOk pd
  lent : Lent pd f m0 m1
  tree : m1.Tree pd
  pte : ∀ n ≠ pagesIn sz, m1.pte pd n = m0.pte pd n
  took : Took fk m1 m2
  link : Linking L pd orig k top none d m2 m
  dir : m.DirOk d

namespace Spending

variable {L : Layout} {pd f fk d sz orig k : Nat} {top : Pte} {m0 m1 m2 m m' : Mem} {g : Frame}

section

variable (h : Spending L pd f fk d sz orig k top m0 m1 m2 m)

include h

theorem tree2 : m2.Tree pd := h.took.keeps.tree h.tree fun _ _ h => h

theorem tree' : m.Tree pd := h.link.building.old_tree h.tree2

theorem partOf (g : Frame) : m.PartOf pd g ↔ m1.PartOf pd g := by
  simp only [Mem.PartOf, h.link.building.keeps.pde h.tree2 fun _ _ h => h,
    h.took.keeps.pde h.tree fun _ _ h => h]

theorem pte2 {n : Nat} (hn : n ≠ pagesIn sz) : m2.pte pd n = m0.pte pd n :=
  (h.took.keeps.pte h.tree (fun _ _ h => h) n).trans (h.pte n hn)

theorem free_of_part (hg : m.PartOf d g) : (m0.page g).isFree :=
  h.lent.shrinks g ((h.took.free g).1 (h.link.building.fresh g hg)).2

theorem free_of_free2 (hg : (m2.page g).isFree) : (m0.page g).isFree :=
  h.lent.shrinks g ((h.took.free g).1 hg).2

theorem data : (m.page f).isData := by
  have h1 := (h.took.keeps f (Page.isFree_of_isData h.lent.data) fun h =>
    h).isData.trans h.lent.data
  exact (h.link.building.keeps f (Page.isFree_of_isData h1) fun h => h).isData.trans h1

theorem kernel : (m.page fk).isKernel :=
  h.link.building.keeps.kernel h.took.kernel fun h => h

theorem disjoint (hg : m.PartOf d g) : ¬ m.PartOf pd g := fun hg' => by
  have hfree := ((h.took.free g).1 (h.link.building.fresh g hg)).2
  simp [(h.tree.part ((h.partOf g).1 hg')).1] at hfree

theorem not_part_of_maps {lo : Nat} (hg : m.MapsIn d lo UPAGES g) :
    (m.page g).isData ∧ ¬ m.PartOf d g ∧ ¬ m.PartOf pd g := by
  obtain ⟨n, -, hn, hp, rfl⟩ := hg
  have hdata := h.dir.user n hn hp
  exact ⟨hdata, fun hg => by simp [(h.dir.tree.part hg).2] at hdata,
    fun hg => by simp [(h.tree'.part hg).2] at hdata⟩

theorem partOf_joined {lo i0 : Nat} (hj : Joined fk d lo i0 m m') (g : Frame) :
    m'.PartOf pd g ↔ m.PartOf pd g := by
  have hpd : m.PartOf pd pd := .inl rfl
  have hpage : m'.page pd = m.page pd := by
    refine hj.kept pd ?_ (fun hmap => (h.not_part_of_maps hmap).2.2 hpd) fun hd => h.disjoint hd hpd
    rintro rfl
    have := h.kernel
    simp [h.tree'.part_kernel hpd] at this
  simp only [Mem.PartOf, Mem.pde, hpage]

theorem spent (hg : (m0.page g).isFree) (hg' : (m.page g).isFree = false) :
    m.PartOf pd g ∨ g = f ∨ g = fk ∨ m.PartOf d g ∨
      ∃ n < k, ¬ Links orig n ∧ (m.pte d n).ppn = g := by
  by_cases h1 : (m1.page g).isFree
  · by_cases hne : g = fk
    · exact .inr (.inr (.inl hne))
    · rcases h.link.taken g ((h.took.free g).2 ⟨hne, h1⟩) hg' with h | h | h
      · exact .inr (.inr (.inr (.inl h)))
      · cases h
      · exact .inr (.inr (.inr (.inr h)))
  · rcases h.lent.taken g hg (by simpa using h1) with hg | hg
    · exact .inr (.inl hg)
    · exact .inl ((h.partOf g).2 hg)

end

/-- **All pages come back** if the thread maps nothing but the page without access and its stack,
and the joiner's stack is in the second page. -/
theorem all_back (h : Spending L pd f fk d sz PGSIZE 1 ⟨f, true, true, true⟩ m0 m1 m2 m)
    (hm0 : m0.FreeOk) (hm : m.FreeOk) (hj : Joined fk d 0 0 m m') (g : Frame) :
    g ∈ m'.freelist ↔ g ∈ m0.freelist ∧ ¬ m'.PartOf pd g := by
  rw [h.partOf_joined hj, hj.freelist, hm.mem_iff, hm0.mem_iff]
  have hl : ¬ Links PGSIZE 0 := by decide
  have hU : 1 < UPAGES := by decide
  obtain ⟨-, g0, hg0, hfree0, hdata0⟩ := h.link.guard 0 one_pos hl
  have hf : m.pte d 1 = ⟨f, true, true, true⟩ := by rw [h.link.rest 1 le_rfl hU, if_pos rfl]
  have hmaps : m.MapsIn d 0 UPAGES g ↔ g = g0 ∨ g = f := by
    constructor
    · rintro ⟨n, -, hn, hp, rfl⟩
      match n with
      | 0 => exact .inl (by rw [hg0])
      | 1 => exact .inr (by rw [hf])
      | n + 2 =>
        rw [h.link.rest _ (by omega) hn, if_neg (by omega)] at hp
        cases hp
    · rintro (rfl | rfl)
      · exact ⟨0, le_rfl, by decide, by rw [hg0], by rw [hg0]⟩
      · exact ⟨1, by omega, hU, by rw [hf], by rw [hf]⟩
  constructor
  · rintro (hg | rfl | hg | ⟨i, -, -, hp, hg⟩ | rfl)
    · refine ⟨h.free_of_free2 (h.link.building.shrinks g hg), fun hpart => ?_⟩
      simp [(h.tree'.part hpart).1] at hg
    · refine ⟨h.lent.shrinks g h.took.was, fun hpart => ?_⟩
      have := h.kernel
      simp [h.tree'.part_kernel hpart] at this
    · refine ⟨?_, (h.not_part_of_maps hg).2.2⟩
      rcases hmaps.1 hg with rfl | rfl
      · exact h.free_of_free2 hfree0
      · exact h.lent.was
    · have hpart : m.PartOf d g := .inr ⟨i, hp, hg⟩
      exact ⟨h.free_of_part hpart, h.disjoint hpart⟩
    · exact ⟨h.free_of_part (.inl rfl), h.disjoint (.inl rfl)⟩
  · rintro ⟨hg, hpart⟩
    by_cases hg' : (m.page g).isFree
    · exact .inl hg'
    rcases h.spent hg (by simpa using hg') with hg | hg | hg | (hg | ⟨i, hp, hg⟩) | ⟨n, hn, -, hg⟩
    · exact absurd hg hpart
    · exact .inr (.inr (.inl (hmaps.2 (.inr hg))))
    · exact .inr (.inl hg)
    · exact .inr (.inr (.inr (.inr hg)))
    · exact .inr (.inr (.inr (.inl ⟨i, Nat.zero_le _, h.link.low i hp, hp, hg⟩)))
    · obtain rfl : n = 0 := by omega
      exact .inr (.inr (.inl (hmaps.2 (.inl (by rw [← hg, hg0])))))

section

variable (h : Spending L pd f fk d sz orig k top m0 m1 m2 m)

include h

/-- **The page tables do not come back** if the loop of `freethread` over them starts behind the
last one. -/
theorem tables_lost {lo i0 : Nat} (hj : Joined fk d lo i0 m m') (hi0 : NPDENTRIES ≤ i0)
    (hm : m.FreeOk) : ∃ g, (m0.page g).isFree ∧ ¬ m'.PartOf pd g ∧ g ∉ m'.freelist := by
  have hp := h.link.tables (KERNBASE / PGSIZE / 1024) (by decide)
  have hpart : m.PartOf d (m.pde d (KERNBASE / PGSIZE / 1024)).ppn := .inr ⟨_, hp, rfl⟩
  refine ⟨_, h.free_of_part hpart, ?_, ?_⟩
  · rw [h.partOf_joined hj]
    exact h.disjoint hpart
  · rw [hj.freelist, hm.mem_iff]
    rintro (hg | hg | hg | ⟨i, hi, hi', -⟩ | hg)
    · simp [(h.dir.tree.part hpart).1] at hg
    · have := h.kernel
      simp [← hg, h.dir.tree.part_kernel hpart] at this
    · exact (h.not_part_of_maps hg).2.1 hpart
    · omega
    · have htab : m.TableIn d 0 NPDENTRIES d := ⟨_, Nat.zero_le _, h.link.low _ hp, hp, hg⟩
      exact h.dir.tree.not_tableIn_self htab

/-- **The page for the stack does not come back** if `linkuvm` did not get to it. -/
theorem stack_lost {lo i0 : Nat} (hj : Joined fk d lo i0 m m') (hm : m.FreeOk)
    (htop : top = .zero) (hk : k ≤ pagesIn sz) :
    (m0.page f).isFree ∧ ¬ m'.PartOf pd f ∧ f ∉ m'.freelist := by
  have hdata := h.data
  refine ⟨h.lent.was, ?_, ?_⟩
  · rw [h.partOf_joined hj]
    exact fun hpart => by simp [(h.tree'.part hpart).2] at hdata
  have hpart : ¬ m.PartOf d f := fun hpart => by simp [(h.dir.tree.part hpart).2] at hdata
  rw [hj.freelist, hm.mem_iff]
  rintro (hg | rfl | ⟨n, -, hn, hp, hg⟩ | ⟨i, -, -, hp, hg⟩ | hg)
  · simp [Page.isFree_of_isData hdata] at hg
  · simp [Page.isData_of_isKernel h.kernel] at hdata
  · -- what the thread maps was mapped by its creator, or was taken later
    rcases Nat.lt_or_ge n k with hlt | hge
    · by_cases hl : Links orig n
      · obtain ⟨hp', heq⟩ := h.link.linked n hlt hl
        rw [h.pte2 (by omega)] at hp' heq
        have := h.start.user n hn hp'
        rw [← heq, hg, Page.isData_of_isFree h.lent.was] at this
        exact Bool.false_ne_true this
      · obtain ⟨-, g, heq, hfree, -⟩ := h.link.guard n hlt hl
        obtain rfl : g = f := by rw [← hg, heq]
        have := ((h.took.free g).1 hfree).2
        simp [Page.isFree_of_isData h.lent.data] at this
    · rw [h.link.rest n hge hn, htop] at hp
      split at hp <;> exact Bool.false_ne_true hp
  · exact hpart (.inr ⟨i, hp, hg⟩)
  · exact hpart (.inl hg)

/-- **A page of the creator is freed** if the thread has linked it and all its pages are freed. -/
theorem linked_freed {i0 : Nat} (hj : Joined fk d 0 i0 m m') (hl : Links orig 0) (hk : 0 < k)
    (hsz : k ≤ pagesIn sz) : ∃ g ∈ m'.freelist, (m0.page g).isFree = false := by
  obtain ⟨hp, heq⟩ := h.link.linked 0 hk hl
  have hU : 0 < UPAGES := by decide
  refine ⟨(m.pte d 0).ppn, (hj.freelist _).2 (.inr (.inr (.inl ⟨0, le_rfl, hU, ?_, rfl⟩))), ?_⟩
  · rw [heq, hp]
  · rw [heq]
    rw [h.pte2 (by omega)] at hp ⊢
    exact Page.isFree_of_isData (h.start.user 0 hU hp)

end

/-- **What comes back**, for every position of the two stacks. -/
theorem back_iff {stackBeg newsz stack : Nat}
    (hnew : newsz = uint32 ((stackBeg : Int) - PGSIZE)) (hbeg : stackBeg % PGSIZE = 0)
    (hbeg32 : stackBeg < 2 ^ 32) (horig : orig % PGSIZE = 0) (h32 : orig < 2 ^ 32)
    (hstack : v2p (pgRoundDown stack) = f)
    (h : ∀ k top, Linking L pd orig k top none d m2 m →
      Spending L pd f fk d sz orig k top m0 m1 m2 m)
    (hend : Linked L pd sz orig stack d m2 m)
    (hm0 : m0.FreeOk) (hm : m.FreeOk)
    (hj : Joined fk d (firstPage newsz) (min newsz KERNBASE) m m') :
    (∀ g, g ∈ m'.freelist ↔ g ∈ m0.freelist ∧ ¬ m'.PartOf pd g) ↔
      PGSIZE < sz ∧ orig = PGSIZE ∧ stackBeg = PGSIZE := by
  -- the two ways in which the sets can differ
  have hlost : ∀ g, (m0.page g).isFree → ¬ m'.PartOf pd g → g ∉ m'.freelist →
      ¬ ∀ g, g ∈ m'.freelist ↔ g ∈ m0.freelist ∧ ¬ m'.PartOf pd g := fun g hg hp hn hall =>
    hn ((hall g).2 ⟨(hm0.mem_iff g).2 hg, hp⟩)
  by_cases hjoin : stackBeg = PGSIZE
  swap
  · -- the loop over the page tables starts behind them
    have hi0 : NPDENTRIES ≤ min newsz KERNBASE := by
      rw [hnew]
      unfold uint32
      unfold NPDENTRIES KERNBASE PGSIZE at *
      omega
    obtain ⟨k, top, hlink⟩ := hend.linking
    obtain ⟨g, hg, hp, hn⟩ := (h k top hlink).tables_lost hj hi0 hm
    exact ⟨fun hall => absurd hall (hlost g hg hp hn), fun hall => absurd hall.2.2 hjoin⟩
  subst hjoin
  obtain rfl : newsz = 0 := hnew
  have hj : Joined fk d 0 0 m m' := hj
  rcases hend with ⟨hlink, hnot⟩ | ⟨hlink, hreach, hU⟩
  · -- the thread has no stack
    obtain ⟨hg, hp, hn⟩ := (h _ _ hlink).stack_lost hj hm rfl le_rfl
    refine ⟨fun hall => absurd hall (hlost _ hg hp hn), fun ⟨hsz, ho, _⟩ => ?_⟩
    exact absurd ⟨ho.ge, ho ▸ hsz⟩ hnot
  have hsz : orig / PGSIZE < pagesIn sz :=
    lt_pagesIn.2 ((Nat.div_mul_le_self _ _).trans_lt hreach.2)
  rw [hstack] at hlink
  by_cases ho : orig = PGSIZE
  · subst ho
    have hone : PGSIZE / PGSIZE = 1 := by decide
    rw [hone] at hlink
    exact ⟨fun _ => ⟨hreach.2, rfl, rfl⟩, fun _ => (h _ _ hlink).all_back hm0 hm hj⟩
  · have hl : Links orig 0 := by
      rw [links_iff hreach.1 h32]
      have := hreach.1
      unfold PGSIZE at *
      omega
    have hk : 0 < orig / PGSIZE := Nat.div_pos hreach.1 (by decide)
    obtain ⟨g, hg, hfree⟩ := (h _ _ hlink).linked_freed hj hl hk hsz.le
    refine ⟨fun hall => ?_, fun hall => absurd hall.2.1 ho⟩
    have := (hm0.mem_iff g).1 ((hall g).1 hg).1
    rw [hfree] at this
    exact absurd this Bool.false_ne_true

end Spending

/-! ## The life of a thread -/

/-- **The life of the thread `np`.** In `s0` the process `cur` starts `thread_creator`: it gets a
page (`s1`), writes to it, detaches it (`s3`), and creates the thread with a stack pointer into it
(`s5`). The thread runs and exits; then `j` joins it (`s7`). -/
structure ThreadLife (cur np j : Slot) (s0 s1 s2 s3 s4 s5 s6 s7 : Machine) : Prop where
  getpage : ∃ c r, s0.kernel.cpu c = some cur ∧ s0.step L (.getpage c, r) = some s1
  got : (s1.kernel.proc cur).tf.eax ≠ 0
  writes : Run (Machine.step L) Machine.Quiet s1 s2
  detach : ∃ c r, s2.kernel.cpu c = some cur ∧
    s2.step L (.detachpage c (s1.kernel.proc cur).tf.eax, r) = some s3
  detached : (s3.kernel.proc cur).tf.eax ≠ uint32 (-1)
  calls : Run (Machine.step L) Machine.Quiet s3 s4
  create : ∃ c r, ∃ off < PGSIZE, off % 4 = 0 ∧ s4.kernel.cpu c = some cur ∧
    s4.step L (.threadCreate c ((s3.kernel.proc cur).tf.eax + off), r) = some s5
  unused : (s4.kernel.proc np).state = .unused
  created : (s5.kernel.proc np).state = .runnable
  runs : Run (Machine.step L) Machine.Quiet s5 s6
  zombie : (s6.kernel.proc np).state = .zombie
  join : ∃ c r tid, s6.kernel.cpu c = some j ∧ s6.step L (.threadJoin c tid, r) = some s7
  reaped : (s7.kernel.proc np).state = .unused

theorem Machine.Quiet.guard {s : Machine} {e : Machine.Event} (h : s.Quiet e) :
    s.Guard False e := by
  obtain ⟨a, r⟩ := e
  cases a <;> first | exact h.elim | trivial

theorem Machine.Ok.quiet {s s' : Machine} (h : s.Ok False)
    (hrun : Run (Machine.step L) Machine.Quiet s s') : s'.Ok False :=
  Run.invariant _ h (fun _ _ _ hs hq hstep => hs.step L hq.guard hstep) hrun

/-- **The first half of `thread_creator`**: the page for the stack was taken and is mapped nowhere,
and the creator has its kernel address. -/
theorem thread_creator_lends {cur : Slot} {s0 s1 s2 s3 s4 : Machine} {c0 c2 : Nat}
    {r0 r2 : List Bool} (h0 : s0.Ok False) (hcur0 : s0.kernel.cpu c0 = some cur)
    (hget : s0.step L (.getpage c0, r0) = some s1) (hgot : (s1.kernel.proc cur).tf.eax ≠ 0)
    (hwrites : Run (Machine.step L) Machine.Quiet s1 s2) (hcur2 : s2.kernel.cpu c2 = some cur)
    (hdet : s2.step L (.detachpage c2 (s1.kernel.proc cur).tf.eax, r2) = some s3)
    (hne : (s3.kernel.proc cur).tf.eax ≠ uint32 (-1))
    (hcalls : Run (Machine.step L) Machine.Quiet s3 s4) :
    s4.Ok False ∧ (s4.kernel.proc cur).pgdir = (s0.kernel.proc cur).pgdir ∧
      (s4.kernel.proc cur).sz = (s0.kernel.proc cur).sz ∧
      (∀ k ≠ pagesIn (s0.kernel.proc cur).sz, s4.mem.pte (s0.kernel.proc cur).pgdir k =
        s0.mem.pte (s0.kernel.proc cur).pgdir k) ∧
      ∃ f, (s3.kernel.proc cur).tf.eax = p2v f ∧
        Lent (s0.kernel.proc cur).pgdir f s0.mem s4.mem := by
  set pd := (s0.kernel.proc cur).pgdir with hpd
  set n := pagesIn (s0.kernel.proc cur).sz with hn
  have h1 := h0.step L (e := (.getpage c0, r0)) (fun _ _ h => h.elim) hget
  have h2 := h1.quiet L hwrites
  have h3 := h2.step L (e := (.detachpage c2 _, r2)) (fun _ _ h => h.elim) hdet
  have hstill := still_run L h1.wf hwrites
  have hstill' := still_run L h3.wf hcalls
  have hret1 : Returns (getpage c0) (s0.start r0) () s1 := Machine.step_returns L hget
  have hret3 : Returns (detachpage c2 _) (s2.start r2) () s3 := Machine.step_returns L hdet
  -- only `eax` of the caller changes
  obtain ⟨_, -, hk1⟩ := getpage_returns (s := s0.start r0) hcur0 hret1
  obtain ⟨_, hk3, -⟩ := detachpage_returns (s := s2.start r2) hcur2 hret3
  rw [Machine.start_kernel] at hk1 hk3
  have hpd2 : (s2.kernel.proc cur).pgdir = pd := by simp [hstill.pgdir, hk1, hpd]
  have hpd4 : (s4.kernel.proc cur).pgdir = pd := by simp [hstill'.pgdir, hk3, hpd2]
  have hsz4 : (s4.kernel.proc cur).sz = (s0.kernel.proc cur).sz := by
    simp [hstill'.sz, hk3, hstill.sz, hk1]
  obtain ⟨heax, hother, hpage⟩ := getpage_lent (h0.start r0) hcur0 hret1 hgot
  have hheld := h0.held cur (h0.used hcur0)
  -- the address that is detached is the one that `getpage` returned
  have hloc : uint32 ((s1.kernel.proc cur).tf.eax : Nat) = n * PGSIZE := by
    rw [heax]
    refine uint32_eq rfl ?_
    have hle := Nat.mul_le_mul_right PGSIZE (pagesIn_le.2 hheld.size)
    exact hle.trans_lt (by decide)
  have hdiv : n * PGSIZE / PGSIZE = n := Nat.mul_div_cancel n (by decide)
  obtain ⟨hb, hppn, hp2v, hother'⟩ := detachpage_unmaps (h2.start r2) hcur2 hret3
    (by rw [hloc]; exact Nat.mul_mod_left n PGSIZE) hne
  simp only [Machine.start_kernel, hpd2, hloc, hdiv] at hb hppn hp2v hother'
  have hstores : DataOnly s1.mem (s2.start r2).mem := hstill.mem.trans ⟨fun _ => .refl _, rfl⟩
  rw [hstores.pte] at hppn hp2v
  have hlent := hpage.resolve_left fun hzero => hppn (congrArg Pte.ppn hzero)
  have htree2 : (s2.start r2).mem.Tree pd :=
    hpd2 ▸ ((h2.start r2).mem.dirs _ ((h2.start r2).held cur (h2.used hcur2)).dir).tree
  have hlent' := ((hlent.stores hstores).builds htree2 hb).stores hstill'.mem
  refine ⟨h3.quiet L hcalls, hpd4, hsz4, fun k hk => ?_, _, hp2v,
    hlent'.was, hlent'.data, hlent'.shrinks, hlent'.taken⟩
  rw [hstill'.mem.pte, hother' k hk, hstores.pte]
  exact hother k hk

/-- **What a thread costs and what comes back** when it is joined. -/
theorem ThreadLife.spending {cur np j : Slot} {s0 s1 s2 s3 s4 s5 s6 s7 : Machine} (h0 : s0.Ok False)
    (h : ThreadLife L cur np j s0 s1 s2 s3 s4 s5 s6 s7) :
    let pd := (s0.kernel.proc cur).pgdir
    let sz := (s4.kernel.proc cur).sz
    let orig := pgRoundDown (s4.kernel.proc cur).tf.esp
    let newsz := uint32 ((pgRoundDown (s6.kernel.proc j).tf.esp : Int) - PGSIZE)
    orig < 2 ^ 32 ∧ pgRoundDown (s6.kernel.proc j).tf.esp < 2 ^ 32 ∧
      ∃ f fk d m2 m stack, v2p (pgRoundDown stack) = f ∧ m.FreeOk ∧
        (∀ k top, Linking L pd orig k top none d m2 m →
          Spending L pd f fk d sz orig k top s0.mem s4.mem m2 m) ∧
        Linked L pd sz orig stack d m2 m ∧
        Joined fk d (firstPage newsz) (min newsz KERNBASE) m s7.mem := by
  intro pd sz orig newsz
  obtain ⟨c0, r0, hcur0, hget⟩ := h.getpage
  obtain ⟨c2, r2, hcur2, hdet⟩ := h.detach
  obtain ⟨c4, r4, off, hoff, hal, hcur4, hcreate⟩ := h.create
  obtain ⟨c6, r6, tid, hcur6, hjoin⟩ := h.join
  obtain ⟨h4, hpgdir, hsz, hpte, f, heax, hlent⟩ := thread_creator_lends L h0 hcur0 hget h.got
    h.writes hcur2 hdet h.detached h.calls
  have hheld := h4.held cur (h4.used hcur4)
  have hphys := h4.mem.phys f (Page.isKernel_of_isData hlent.data)
  have hv2p := v2p_p2v hphys hoff
  rw [heax] at hcreate
  have hal' : uint32 ((p2v f + off : Nat) : Int) % 4 = 0 := by
    rw [(uint32_p2v_add hphys hoff).1]
    unfold PGSIZE KERNBASE
    omega
  obtain ⟨h5, m2, htook, hend⟩ := threadCreate_links L (h4.start r4) hcur4
    (Machine.step_returns L hcreate) h.unused h.created (by rw [hv2p]; exact hlent.data) hal'
  have hstill := still_run L h5.wf h.runs
  have h6 := (h5.quiet L h.runs).start r6
  have hdata : DataOnly s5.mem (s6.start r6).mem := hstill.mem.trans ⟨fun _ => .refl _, rfl⟩
  have hjoined := threadJoin_joined L h6 hcur6 (Machine.step_returns L hjoin) h.zombie h.reaped rfl
  have hu6 : (s6.start r6).Used np := by
    rw [Machine.Used, Machine.start_kernel, h.zombie]
    rfl
  rw [Machine.start_kernel, hstill.pgdir, hstill.kstack] at hjoined
  have hdir : (s6.start r6).mem.DirOk (s5.kernel.proc np).pgdir :=
    h6.mem.dirs _ (hstill.pgdir np ▸ (h6.held np hu6).dir)
  rw [Machine.start_kernel, hpgdir] at hend
  refine ⟨(pgRoundDown_le _).trans_lt hheld.esp,
    (pgRoundDown_le _).trans_lt (h6.held j (h6.used hcur6)).esp, f, _, _, m2, _, _, hv2p,
    h6.mem.free, fun k top hlink => ?_, hend.data hdata, hjoined⟩
  have htree : s4.mem.Tree (s0.kernel.proc cur).pgdir := hpgdir ▸ (h4.mem.dirs _ hheld.dir).tree
  exact ⟨h0.mem.dirs _ (h0.held cur (h0.used hcur0)).dir, hlent, htree,
    fun k hk => hpte k (hsz ▸ hk),
    { htook with }, hlink, hdir⟩

/-- **A thread's life leaks no page** exactly if its creator has its stack in the second page, below
its size, and the one who joins it has its stack in the second page as well. -/
theorem thread_life_leaks_nothing_iff {cur np j : Slot} {s0 s1 s2 s3 s4 s5 s6 s7 : Machine}
    (h0 : s0.Ok False) (h : ThreadLife L cur np j s0 s1 s2 s3 s4 s5 s6 s7) :
    (∀ f, f ∈ s7.mem.freelist ↔
      f ∈ s0.mem.freelist ∧ ¬ s7.mem.PartOf (s0.kernel.proc cur).pgdir f) ↔
    PGSIZE < (s4.kernel.proc cur).sz ∧ pgRoundDown (s4.kernel.proc cur).tf.esp = PGSIZE ∧
      pgRoundDown (s6.kernel.proc j).tf.esp = PGSIZE := by
  obtain ⟨h32, hbeg32, f, fk, d, m2, m, stack, hv2p, hm, hspend, hend, hjoined⟩ := h.spending L h0
  exact Spending.back_iff rfl (pgRoundDown_mod _) hbeg32 (pgRoundDown_mod _) h32 hv2p hspend hend
    h0.mem.free hm hjoined

/-- One thread from its creation to its join, by the first process with its stack at `esp`, and what
is checked of the state before the join. -/
def oneThread (esp : Nat) (s0 : Machine) : Option Bool :=
  (s0.step smallLayout (.getpage 0, [])).bind fun s1 =>
  (s1.step smallLayout (.detachpage 0 (s1.kernel.proc 0).tf.eax, [])).bind fun s3 =>
  (s3.step smallLayout (.threadCreate 0 ((s3.kernel.proc 0).tf.eax + 4092), [])).bind fun s5 =>
  (runs (Machine.step smallLayout) Machine.Quiet s5 [(.table (.call 0 .yield), []),
    (.table (.dispatch 0 1), []), (.table (.call 0 .exit), []), (.table (.dispatch 0 0), [])]).bind
    fun s6 =>
  (s6.step smallLayout (.threadJoin 0 2, [])).map fun s7 => decide
    (s0.kernel.cpu 0 = some 0 ∧ s1.kernel.cpu 0 = some 0 ∧ s3.kernel.cpu 0 = some 0 ∧
      s6.kernel.cpu 0 = some 0 ∧ (s1.kernel.proc 0).tf.eax ≠ 0 ∧
      (s3.kernel.proc 0).tf.eax ≠ uint32 (-1) ∧ (s3.kernel.proc 1).state = .unused ∧
      (s5.kernel.proc 1).state = .runnable ∧ (s6.kernel.proc 1).state = .zombie ∧
      (s7.kernel.proc 1).state = .unused ∧ (s3.kernel.proc 0).tf.esp = esp ∧
      (s6.kernel.proc 0).tf.esp = esp ∧ (s3.kernel.proc 0).sz = 12288)

theorem life_of_oneThread {esp : Nat} {s0 : Machine} (h : oneThread esp s0 = some true) :
    ∃ s1 s3 s5 s6 s7, ThreadLife smallLayout 0 1 0 s0 s1 s1 s3 s3 s5 s6 s7 ∧
      (s3.kernel.proc 0).tf.esp = esp ∧ (s6.kernel.proc 0).tf.esp = esp ∧
      (s3.kernel.proc 0).sz = 12288 := by
  simp only [oneThread, Option.bind_eq_some_iff, Option.map_eq_some_iff, decide_eq_true_eq] at h
  obtain ⟨s1, hget, s3, hdet, s5, hcreate, s6, hrun, s7, hjoin, hcur0, hcur1, hcur3, hcur6, hgot,
    hne, hunused, hnew, hzombie, hreaped, hesp3, hesp6, hsz⟩ := h
  exact ⟨s1, s3, s5, s6, s7, ⟨⟨0, [], hcur0, hget⟩, hgot, .refl, ⟨0, [], hcur1, hdet⟩, hne, .refl,
    ⟨0, [], 4092, by decide, by decide, hcur3, hcreate⟩, hunused, hnew, run_of_runs .refl hrun,
    hzombie, ⟨0, [], 2, hcur6, hjoin⟩, hreaped⟩, hesp3, hesp6, hsz⟩

/-- A thread of a process of three pages with its stack in the second one. -/
theorem thread_life_leaks_nothing_on_second_page : ∃ s0 s1 s3 s5 s6 s7,
    ThreadLife smallLayout 0 1 0 s0 s1 s1 s3 s3 s5 s6 s7 ∧
    ∀ f, f ∈ s7.mem.freelist ↔
      f ∈ s0.mem.freelist ∧ ¬ s7.mem.PartOf (s0.kernel.proc 0).pgdir f := by
  obtain ⟨s0, -, hok, hs⟩ := exists_ok_of_runs
    [(.userinit, []), (.table (.dispatch 0 0), []), (.setEsp 0 100, []), (.sbrk 0 8192, []),
      (.setEsp 0 4200, [])] (fun s => oneThread 4200 s = some true) (by decide +kernel)
  obtain ⟨s1, s3, s5, s6, s7, hlife, hesp3, hesp6, hsz⟩ := life_of_oneThread (of_decide_eq_true hs)
  refine ⟨s0, s1, s3, s5, s6, s7, hlife, (thread_life_leaks_nothing_iff smallLayout hok hlife).2 ?_⟩
  rw [hesp3, hesp6, hsz]
  decide

/-- **A page that is lost**: a thread of a process of three pages with its stack in the third one,
which costs the page tables of the thread. -/
theorem thread_life_leaks : ∃ s0 s1 s3 s5 s6 s7,
    Reachable (Machine.step smallLayout) smallBoot s0 ∧
    ThreadLife smallLayout 0 1 0 s0 s1 s1 s3 s3 s5 s6 s7 ∧
    ∃ f, f ∈ s0.mem.freelist ∧ ¬ s7.mem.PartOf (s0.kernel.proc 0).pgdir f ∧
      f ∉ s7.mem.freelist := by
  obtain ⟨s0, hrun, hok, hs⟩ := exists_ok_of_runs
    [(.userinit, []), (.table (.dispatch 0 0), []), (.setEsp 0 100, []), (.sbrk 0 8192, []),
      (.setEsp 0 8300, [])] (fun s => oneThread 8300 s = some true) (by decide +kernel)
  obtain ⟨s1, s3, s5, s6, s7, hlife, hesp3, hesp6, hsz⟩ := life_of_oneThread (of_decide_eq_true hs)
  refine ⟨s0, s1, s3, s5, s6, s7, hrun.mono fun _ _ _ => trivial, hlife, ?_⟩
  obtain ⟨-, -, f, fk, d, m2, m, stack, -, hm, hspend, hend, hjoined⟩ :=
    hlife.spending smallLayout hok
  obtain ⟨k, top, hlink⟩ := hend.linking
  have hlate : NPDENTRIES ≤
      min (uint32 ((pgRoundDown (s6.kernel.proc 0).tf.esp : Int) - PGSIZE)) KERNBASE := by
    rw [hesp6]
    decide
  obtain ⟨g, hg, hpart, hlost⟩ := (hspend k top hlink).tables_lost hjoined hlate hm
  exact ⟨g, (hok.mem.free.mem_iff g).2 hg, hpart, hlost⟩

end Xv6.Memory
