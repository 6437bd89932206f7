import Xv6.Memory.Runs

/-! # What a new thread can reach

`thread_create` maps the page that its caller names by a kernel address. Nothing checks the address,
so that the pages of the new thread are the group's own exactly if the caller names such a page.

* **`thread_create_isolated_iff`** — this equivalence, for every state and every argument.
* **`kernel_page_exposed`** — a run in which a thread gets a page of the kernel.
* **`linkuvm_shares_iff`** — when a thread shares all of its caller's memory but the stack:
  `linkuvm` leaves its loop at the stack, so that what lies behind it is not linked. -/

namespace Xv6.Memory

open Foundation Created

variable (L : Layout)

namespace Machine

/-- The page `f` belongs to the group of the process `cur`: it is mapped in its address space, or
the group has detached it and it was not freed since. -/
def Owns (s : Machine) (cur : Slot) (f : Frame) : Prop :=
  (∃ n < UPAGES, (s.mem.pte (s.kernel.proc cur).pgdir n).p ∧
    (s.mem.pte (s.kernel.proc cur).pgdir n).ppn = f) ∨
  (s.mem.detached f = some (s.kernel.proc cur).firstPid ∧ (s.mem.page f).isData)

/-- All that user code can reach as the process `np` of `s'` belonged to the group of `cur` in
`s`. -/
def Isolated (s : Machine) (cur : Slot) (s' : Machine) (np : Slot) : Prop :=
  ∀ n, (s'.mem.pte (s'.kernel.proc np).pgdir n).p → (s'.mem.pte (s'.kernel.proc np).pgdir n).u →
    s.Owns cur (s'.mem.pte (s'.kernel.proc np).pgdir n).ppn

end Machine

section

variable {s : Machine} {cur : Slot} {m m' : Mem} {orig stack sz d k : Nat} {top : Pte}
  {held : Option Frame}

/-- What is user-accessible in a linked directory is mapped in the caller, but for the last page. -/
theorem Linking.owned {L : Layout}
    (h : Linking L (s.kernel.proc cur).pgdir orig k top held d m m')
    (hold : ∀ n, m.pte (s.kernel.proc cur).pgdir n = s.mem.pte (s.kernel.proc cur).pgdir n)
    {n : Nat} (hp : (m'.pte d n).p) (hu : (m'.pte d n).u) :
    s.Owns cur (m'.pte d n).ppn ∨ (n = k ∧ m'.pte d n = top) := by
  rcases Nat.lt_or_ge n k with hlt | hge
  · by_cases hl : Links orig n
    · obtain ⟨hp', heq⟩ := h.linked n hlt hl
      rw [hold] at hp' heq
      exact .inl (.inl ⟨n, hlt.trans_le h.bound, hp', by rw [heq]⟩)
    · -- the page before the stack is not for user code
      obtain ⟨-, g, heq, -⟩ := h.guard n hlt hl
      simp [heq] at hu
  · rcases Nat.lt_or_ge n UPAGES with hn | hn
    · have hrest := h.rest n hge hn
      split at hrest
      · exact .inr ⟨‹_›, hrest⟩
      · simp [hrest] at hp
    · rw [h.kernel n hn] at hu
      simp [kernelPte_u] at hu

/-- The new directory is isolated exactly if the page that becomes the stack is the group's. -/
theorem Linked.isolated_iff {L : Layout}
    (h : Linked L (s.kernel.proc cur).pgdir sz orig stack d m m')
    (hold : ∀ n, m.pte (s.kernel.proc cur).pgdir n = s.mem.pte (s.kernel.proc cur).pgdir n) :
    (∀ n, (m'.pte d n).p → (m'.pte d n).u → s.Owns cur (m'.pte d n).ppn) ↔
      (StackReached sz orig → s.Owns cur (v2p (pgRoundDown stack))) := by
  rcases h with ⟨hlink, hnot⟩ | ⟨hlink, hreach, hlt⟩
  · refine ⟨fun _ hr => absurd hr hnot, fun _ n hp hu => ?_⟩
    rcases hlink.owned hold hp hu with howns | ⟨-, heq⟩
    · exact howns
    · simp [heq] at hp
  · have htop := hlink.rest _ le_rfl hlt
    rw [if_pos rfl] at htop
    refine ⟨fun hall _ => ?_, fun hown n hp hu => ?_⟩
    · have := hall (orig / PGSIZE) (by rw [htop]) (by rw [htop])
      rwa [htop] at this
    · rcases hlink.owned hold hp hu with howns | ⟨-, heq⟩
      · exact howns
      · rw [heq]
        exact hown hreach

end

/-! ## How a thread is made -/

/-- The page `f` was taken for the kernel. -/
structure Took (f : Frame) (m m' : Mem) : Prop where
  was : (m.page f).isFree
  kernel : (m'.page f).isKernel
  keeps : Keeps (fun _ => False) m m'
  exact : m.Exact m'
  free : ∀ g, (m'.page g).isFree ↔ g ≠ f ∧ (m.page g).isFree

theorem took_of_free {m : Mem} {f : Frame} {b : Nat → UInt8} (hf : (m.page f).isFree) :
    Took f m ((m.asked.grant f).setPage f (.kernel b)) := by
  refine ⟨hf, by simp [Page.isKernel], keeps_take hf,
    exact_of_free hf fun g hg => by simp [put_of_ne hg], fun g => ?_⟩
  by_cases hg : g = f
  · simp [hg, Page.isFree]
  · simp [put_of_ne hg, hg]

theorem linkAll_of_linkuvm {m m' : Mem} {pgdir sz orig stack : Nat} {d : Frame}
    (h : Returns (linkuvm L pgdir sz orig stack) m (some d) m') :
    ∃ m1 r, Returns (setupkvm L) m (some d) m1 ∧
      Returns (linkAll L pgdir sz orig stack d) m1 r m' ∧ r ≠ some false := by
  simp only [linkuvm, returns_bind] at h
  obtain ⟨_ | d', m1, hsetup, h⟩ := h
  · exact absurd (returns_pure.1 h).1 (by simp)
  obtain ⟨r, m2, hlink, h⟩ := returns_bind.1 h
  rcases r with _ | _ | _
  · obtain ⟨hd, rfl⟩ := returns_pure.1 h
    exact ⟨m1, none, Option.some.inj hd ▸ hsetup, Option.some.inj hd ▸ hlink, by simp⟩
  · obtain ⟨_, m3, -, h⟩ := returns_bind.1 h
    exact absurd (returns_pure.1 h).1 (by simp)
  · obtain ⟨hd, rfl⟩ := returns_pure.1 h
    exact ⟨m1, some true, Option.some.inj hd ▸ hsetup, Option.some.inj hd ▸ hlink, by simp⟩

theorem threadSpace_parts {m m' : Mem} {x : Proc} {stack sz : Nat} {d : Frame} {tf : TrapFrame}
    (h : Returns (threadSpace L stack x) m (some (d, sz, tf)) m') :
    ∃ eip, Returns (linkuvm L x.pgdir x.sz (pgRoundDown x.tf.esp) stack) m (some d) m' ∧
      Returns (loadWord x.pgdir (uint32 (pgRoundDown x.tf.esp + stack % PGSIZE))) m' eip m' ∧
      sz = uint32 (pgRoundDown x.tf.esp + PGSIZE) ∧ tf.eip = eip ∧
      tf.esp = uint32 (uint32 (pgRoundDown x.tf.esp + stack % PGSIZE) + 4) := by
  simp only [threadSpace, returns_bind] at h
  obtain ⟨_ | d', m1, hlink, h⟩ := h
  · exact absurd (returns_pure.1 h).1 (by simp)
  obtain ⟨eip, m2, hload, h⟩ := returns_bind.1 h
  obtain ⟨hres, rfl⟩ := returns_pure.1 h
  simp only [Option.some.injEq, Prod.mk.injEq] at hres
  obtain ⟨rfl, hsz, htf⟩ := hres
  obtain rfl := (@loadWord_spec False False _ _ _).of_returns hload
  exact ⟨eip, hlink, hload, hsz, by rw [htf], by rw [htf]⟩

/-- **A new thread** `np` was made by `thread_create(stack)`, called by `cur`: its kernel stack was
taken (`m1`), a directory was set up (`m2`), and the loop of `linkuvm` ended with `r`. -/
structure Made (s s' : Machine) (cur np : Slot) (stack : Nat) (m1 m2 : Mem) (r : Option Bool) :
    Prop where
  arg : argint (s.kernel.proc cur)
  sz : (s'.kernel.proc np).sz = uint32 (pgRoundDown (s.kernel.proc cur).tf.esp + PGSIZE)
  esp : (s'.kernel.proc np).tf.esp =
    uint32 (uint32 (pgRoundDown (s.kernel.proc cur).tf.esp + (stack % PGSIZE : Nat)) + 4)
  eip : Returns (loadWord (s.kernel.proc cur).pgdir
      (uint32 (pgRoundDown (s.kernel.proc cur).tf.esp + (stack % PGSIZE : Nat)))) s'.mem
    (s'.kernel.proc np).tf.eip s'.mem
  took : Took (s'.kernel.proc np).kstack s.mem m1
  fresh : Fresh L (s'.kernel.proc np).pgdir m1 m2
  link : Returns (linkAll L (s.kernel.proc cur).pgdir (s.kernel.proc cur).sz
    (pgRoundDown (s.kernel.proc cur).tf.esp) stack (s'.kernel.proc np).pgdir) m2 r s'.mem
  good : r ≠ some false
  passed : ∀ f m d m1 m2, Returns kalloc s.mem (some f) m →
    Returns (setupkvm L) (m.setPage f (.kernel (m.page f).byte)) (some d) m1 →
    ¬ Returns (linkAll L (s.kernel.proc cur).pgdir (s.kernel.proc cur).sz
      (pgRoundDown (s.kernel.proc cur).tf.esp) stack d) m1 (some false) m2

theorem threadCreate_made {s s' : Machine} {c stack : Nat} {cur np : Slot}
    (hcur : s.kernel.cpu c = some cur) (hrun : (s.kernel.proc cur).state = .running)
    (hret : Returns (sysThreadCreate L c stack) s () s')
    (hnp : (s.kernel.proc np).state = .unused) (hnew : (s'.kernel.proc np).state = .runnable) :
    ∃ m1 m2 r, Made L s s' cur np (uint32 stack) m1 m2 r := by
  simp only [sysThreadCreate, returns_bind] at hret
  obtain ⟨cur', s1, hcaller, x, s2, hproc, honly⟩ := hret
  obtain ⟨hcur', rfl⟩ := caller_returns hcaller
  obtain rfl : cur = cur' := Option.some.inj (hcur.symm.trans hcur')
  obtain ⟨rfl, rfl⟩ := returns_procOf.1 hproc
  rcases returns_onlyIf.1 honly with ⟨harg, hcreate⟩ | ⟨-, rfl⟩
  swap
  · exact absurd (hnp.symm.trans hnew) (by decide)
  obtain ⟨f, m, d, sz, tf, hkalloc, hspace, hself, -⟩ := create_new hcur hrun hcreate hnp hnew
  simp only [Proc.space, Space.mk.injEq] at hself
  obtain ⟨rfl, rfl, hsz, rfl, -⟩ := hself
  obtain ⟨eip, hlink, hload, hsz', heip, hesp⟩ := threadSpace_parts L hspace
  rw [← Int.natCast_mod] at hload hesp
  obtain ⟨m2, r, hsetup, hall, hr⟩ := linkAll_of_linkuvm L hlink
  have hfresh := (((@setupkvm_spec L False False _ False.elim).of_returns hsetup).2 _ rfl).1
  have htook : Took (s'.kernel.proc np).kstack s2.mem (m.setPage (s'.kernel.proc np).kstack
      (.kernel (m.page (s'.kernel.proc np).kstack).byte)) := by
    obtain ⟨hfree, rfl, -⟩ := kalloc_returns hkalloc
    exact took_of_free hfree
  refine ⟨_, m2, r, harg, by rw [hsz, hsz'], hesp, by rw [heip]; exact hload, htook,
    hfresh, hall, hr, fun f' m' d' m1' m2' hkalloc' hsetup' hall' => ?_⟩
  -- the code has one outcome only
  obtain ⟨hf, rfl⟩ := hkalloc.unique hkalloc'
  cases hf
  obtain ⟨hd, rfl⟩ := hsetup.unique hsetup'
  cases hd
  exact hr (hall.unique hall').1

section

variable {L} {s s' : Machine} {cur np : Slot} {stack : Nat} {m1 m2 : Mem} {r : Option Bool}
  (h : Made L s s' cur np stack m1 m2 r) (ht : s.mem.Tree (s.kernel.proc cur).pgdir)

include h ht

theorem Made.tree : m1.Tree (s.kernel.proc cur).pgdir := h.took.keeps.tree ht fun _ _ h => h

theorem Made.pte (n : Nat) :
    m1.pte (s.kernel.proc cur).pgdir n = s.mem.pte (s.kernel.proc cur).pgdir n :=
  h.took.keeps.pte ht (fun _ _ h => h) n

theorem Made.linkEnd (hesp : (s.kernel.proc cur).tf.esp < 2 ^ 32) :
    LinkEnd L (s.kernel.proc cur).pgdir (s.kernel.proc cur).sz
      (pgRoundDown (s.kernel.proc cur).tf.esp) stack (s'.kernel.proc np).pgdir m1 r s'.mem ∧
    UntilMove (s.kernel.proc cur).pgdir (s.kernel.proc cur).sz stack
      (pgRoundDown (s.kernel.proc cur).tf.esp) m2 r s'.mem :=
  ((linkAll_spec L (pgRoundDown_mod _) ((pgRoundDown_le _).trans_lt hesp) (h.tree ht)
    (fun h (_ : True) => h.elim) False.elim h.fresh False.elim).of_returns h.link).2

theorem Made.linked (hesp : (s.kernel.proc cur).tf.esp < 2 ^ 32) :
    Linked L (s.kernel.proc cur).pgdir (s.kernel.proc cur).sz
      (pgRoundDown (s.kernel.proc cur).tf.esp) stack (s'.kernel.proc np).pgdir m1 s'.mem := by
  have hend := (h.linkEnd ht hesp).1
  rcases r with _ | _ | _
  · exact .inl hend
  · exact absurd rfl h.good
  · exact .inr hend

end

/-- **The pages of a new thread** are those of its group exactly if the page that the caller names
is, in case it is mapped at all. -/
theorem thread_create_isolated_iff {s s' : Machine} {c stack : Nat} {refuse : List Bool}
    {cur np : Slot} (hcur : s.kernel.cpu c = some cur) (hrun : (s.kernel.proc cur).state = .running)
    (hesp : (s.kernel.proc cur).tf.esp < 2 ^ 32) (htree : s.mem.Tree (s.kernel.proc cur).pgdir)
    (hstep : s.step L (.threadCreate c stack, refuse) = some s')
    (hnp : (s.kernel.proc np).state = .unused) (hnew : (s'.kernel.proc np).state = .runnable) :
    s.Isolated cur s' np ↔
      (StackReached (s.kernel.proc cur).sz (pgRoundDown (s.kernel.proc cur).tf.esp) →
        s.Owns cur (v2p (pgRoundDown (uint32 stack)))) := by
  obtain ⟨m1, m2, r, hmade⟩ := threadCreate_made L (s := s.start refuse) hcur hrun
    (Machine.step_returns L hstep) hnp hnew
  have ht : (s.start refuse).mem.Tree (s.kernel.proc cur).pgdir := ⟨htree.dir, htree.table⟩
  exact (hmade.linked ht hesp).isolated_iff (hmade.pte ht)

/-- The first process grows, gets a page, detaches it and names it as the stack of a thread. -/
theorem thread_create_isolated_on_own_page : ∃ s s' : Machine,
    s.step smallLayout (.threadCreate 0 2382077948, []) = some s' ∧
    StackReached (s.kernel.proc 0).sz (pgRoundDown (s.kernel.proc 0).tf.esp) ∧
    (s'.kernel.proc 1).state = .runnable ∧ s.Isolated 0 s' 1 := by
  obtain ⟨s, -, hok, hs⟩ := exists_ok_of_runs
    [(.userinit, []), (.table (.dispatch 0 0), []), (.setEsp 0 100, []), (.sbrk 0 8192, []),
      (.setEsp 0 4200, []), (.getpage 0, []), (.detachpage 0 12288, [])]
    (fun s => decide (s.kernel.cpu 0 = some 0 ∧ (s.kernel.proc 0).state = .running ∧
        (s.kernel.proc 1).state = .unused ∧
        StackReached (s.kernel.proc 0).sz (pgRoundDown (s.kernel.proc 0).tf.esp) ∧
        s.mem.detached (v2p (pgRoundDown (uint32 2382077948))) = some (s.kernel.proc 0).firstPid ∧
        (s.mem.page (v2p (pgRoundDown (uint32 2382077948)))).isData = true) &&
      ((s.step smallLayout (.threadCreate 0 2382077948, [])).map fun s' =>
        decide ((s'.kernel.proc 1).state = .runnable)) = some true) (by decide +kernel)
  simp only [Bool.and_eq_true, decide_eq_true_eq, Option.map_eq_some_iff] at hs
  obtain ⟨⟨hcur, hrun, hnp, hreach, hdet, hdata⟩, s', hstep, hnew⟩ := hs
  have hheld := hok.held 0 (hok.used hcur)
  exact ⟨s, s', hstep, hreach, hnew,
    (thread_create_isolated_iff smallLayout hcur hrun hheld.esp (hok.mem.dirs _ hheld.dir).tree
      hstep hnp hnew).2 fun _ => .inr ⟨hdet, hdata⟩⟩

/-- **A page of the kernel in a thread.** The first process grows and names the first page of memory
as the stack of a thread, which can then write the kernel's page. -/
theorem kernel_page_exposed : ∃ s s' : Machine,
    Reachable (Machine.step smallLayout) smallBoot s ∧
    s.step smallLayout (.threadCreate 0 (KERNBASE + 4092), []) = some s' ∧
    (s.kernel.proc 1).state = .unused ∧ (s'.kernel.proc 1).state = .runnable ∧
    (∃ n, (s'.mem.pte (s'.kernel.proc 1).pgdir n).p = true ∧
      (s'.mem.pte (s'.kernel.proc 1).pgdir n).u = true ∧
      (s.mem.page (s'.mem.pte (s'.kernel.proc 1).pgdir n).ppn).isKernel = true) ∧
    ¬ s.Isolated 0 s' 1 := by
  obtain ⟨s, hrun, hok, hs⟩ := exists_ok_of_runs
    [(.userinit, []), (.table (.dispatch 0 0), []), (.setEsp 0 100, []), (.sbrk 0 8192, []),
      (.setEsp 0 4200, [])]
    (fun s => decide (s.kernel.cpu 0 = some 0 ∧ (s.kernel.proc 1).state = .unused) &&
      ((s.step smallLayout (.threadCreate 0 (KERNBASE + 4092), [])).map fun s' =>
        decide ((s'.kernel.proc 1).state = .runnable ∧
          (s'.mem.pte (s'.kernel.proc 1).pgdir 1).p = true ∧
          (s'.mem.pte (s'.kernel.proc 1).pgdir 1).u = true ∧
          (s.mem.page (s'.mem.pte (s'.kernel.proc 1).pgdir 1).ppn).isKernel = true)) = some true)
    (by decide +kernel)
  simp only [Bool.and_eq_true, decide_eq_true_eq, Option.map_eq_some_iff] at hs
  obtain ⟨⟨hcur, hnp⟩, s', hstep, hnew, hp, hu, hker⟩ := hs
  refine ⟨s, s', hrun.mono fun _ _ _ => trivial, hstep, hnp, hnew, ⟨1, hp, hu, hker⟩,
    fun hiso => ?_⟩
  have hheld := hok.held 0 (hok.used hcur)
  rcases hiso 1 hp hu with ⟨n, hn, hpn, heq⟩ | ⟨-, hdata⟩
  · have hdata := (hok.mem.dirs _ hheld.dir).user n hn hpn
    rw [heq] at hdata
    simp [Page.isData_of_isKernel hker] at hdata
  · simp [Page.isData_of_isKernel hker] at hdata

/-! ## What a new thread shares -/

/-- Below `sz`, the directory `d` maps what `pgdir` did, but for the stack and the page before
it. -/
def SharesRest (pgdir sz origStackBeg : Nat) (d : Frame) (m m' : Mem) : Prop :=
  ∀ n < pagesIn sz, n * PGSIZE ≠ origStackBeg → (n + 1) * PGSIZE ≠ origStackBeg →
    m'.pte d n = m.pte pgdir n

/-- **Threads share all but the stack** exactly if there is no page behind the caller's stack, or
its stack is in the first page. -/
theorem linkuvm_shares_iff {m m' : Mem} {pgdir sz orig stack : Nat} {d : Frame}
    (horig : orig % PGSIZE = 0) (h32 : orig < 2 ^ 32) (ht : m.Tree pgdir)
    (hpres : ∀ n < pagesIn sz, n < UPAGES ∧ (m.pte pgdir n).p)
    (hret : Returns (linkuvm L pgdir sz orig stack) m (some d) m') :
    SharesRest pgdir sz orig d m m' ↔ orig < PGSIZE ∨ sz ≤ orig + PGSIZE := by
  have hend := (((linkuvm_spec L horig h32 ht (fun h (_ : True) => h.elim) False.elim False.elim
    False.elim).of_returns hret).2 d rfl).2
  constructor
  · intro hshare
    by_contra! hcond
    rcases hend with ⟨-, hnot⟩ | ⟨hlink, -⟩
    · exact hnot ⟨hcond.1, by omega⟩
    · -- the page behind the stack is mapped in the caller only
      obtain ⟨n, hn⟩ : ∃ n, n = orig / PGSIZE + 1 := ⟨_, rfl⟩
      have hva : n * PGSIZE = orig + PGSIZE := by
        rw [hn, Nat.succ_mul, Nat.div_mul_cancel (Nat.dvd_of_mod_eq_zero horig)]
      have hlt : n < pagesIn sz := lt_pagesIn.2 (by omega)
      have hzero := hlink.rest n (by omega) (hpres n hlt).1
      have hpos : 0 < PGSIZE := by decide
      rw [if_neg (by omega), hshare n hlt (by omega) (by rw [Nat.succ_mul]; omega)] at hzero
      simpa [hzero] using (hpres n hlt).2
  · intro hcond n hn hstack hguard
    have hsz := lt_pagesIn.1 hn
    have hl : Links orig n := by
      rcases lt_or_ge orig PGSIZE with hlt | hge
      · exact links_of_lt hlt (hpres n hn).1.le
      · rw [links_iff hge h32]
        by_contra hle
        unfold PGSIZE at horig hcond hstack hguard hsz hge hle
        rcases hstack.lt_or_gt with h | h <;> omega
    rcases hend with ⟨hlink, -⟩ | ⟨hlink, ⟨hge, -⟩, -⟩
    · exact (hlink.linked n hn hl).2
    · have hlt := (links_iff hge h32).1 hl
      refine (hlink.linked n ?_ hl).2
      unfold PGSIZE at hlt ⊢
      omega

/-- `linkuvm` for the first process, with a page that it detached. -/
abbrev linkFirst (s : Machine) (origStackBeg : Nat) : Code (Option Frame) :=
  linkuvm smallLayout (s.kernel.proc 0).pgdir (s.kernel.proc 0).sz origStackBeg 2382077948

/-- Whether `linkuvm` works with the stack in the second page and in the third, and leaves out the
third in the first case. -/
def linksBoth (s : Machine) : Bool :=
  match exec (linkFirst s PGSIZE) s.mem, exec (linkFirst s (2 * PGSIZE)) s.mem with
  | (.ok (some d), m), (.ok (some _), _) => !(m.pte d 2).p
  | _, _ => false

/-- The first process has three pages and has detached a fourth: what `linkuvm` makes of it with the
stack in the second page and in the third. -/
theorem exists_linked : ∃ (s : Machine) (d d' : Frame) (m m' : Mem),
    Reachable (Machine.step smallLayout) smallBoot s ∧
    s.mem.Tree (s.kernel.proc 0).pgdir ∧ (s.kernel.proc 0).sz = 3 * PGSIZE ∧
    (∀ n < pagesIn (s.kernel.proc 0).sz, n < UPAGES ∧
      (s.mem.pte (s.kernel.proc 0).pgdir n).p) ∧
    Returns (linkFirst s PGSIZE) s.mem (some d) m ∧ (m.pte d 2).p = false ∧
    Returns (linkFirst s (2 * PGSIZE)) s.mem (some d') m' := by
  obtain ⟨s, hrun, hok, hs⟩ := exists_ok_of_runs
    [(.userinit, []), (.table (.dispatch 0 0), []), (.setEsp 0 100, []), (.sbrk 0 8192, []),
      (.getpage 0, []), (.detachpage 0 12288, [])]
    (fun s => decide (s.kernel.cpu 0 = some 0 ∧ (s.kernel.proc 0).sz = 3 * PGSIZE ∧
        ∀ n ∈ List.range 3, (s.mem.pte (s.kernel.proc 0).pgdir n).p = true) && linksBoth s)
    (by decide +kernel)
  rw [Bool.and_eq_true, decide_eq_true_eq, linksBoth] at hs
  obtain ⟨⟨hcur, hsz, hpres⟩, hlink⟩ := hs
  split at hlink
  · rename_i d m d' m' hret hret'
    refine ⟨s, d, d', m, m', hrun.mono fun _ _ _ => trivial,
      (hok.mem.dirs _ (hok.held 0 (hok.used hcur)).dir).tree, hsz, fun n hn => ?_, hret,
      by simpa using hlink, hret'⟩
    rw [hsz] at hn
    exact ⟨hn.trans (by decide), hpres n (List.mem_range.2 hn)⟩
  · cases hlink

/-- With the stack in the last of three pages, the first page is shared. -/
theorem linkuvm_shares_low_page : ∃ (s : Machine) (d : Frame) (m : Mem),
    Returns (linkFirst s (2 * PGSIZE)) s.mem (some d) m ∧
    m.pte d 0 = s.mem.pte (s.kernel.proc 0).pgdir 0 ∧ (m.pte d 0).p = true := by
  obtain ⟨s, -, d, -, m, -, ht, hsz, hpres, -, -, hret⟩ := exists_linked
  have hlow : 0 < pagesIn (s.kernel.proc 0).sz := by
    rw [hsz]
    decide
  have hshare := (linkuvm_shares_iff smallLayout (by decide) (by decide) ht hpres hret).2
    (.inr hsz.le) 0 hlow (by decide) (by decide)
  exact ⟨s, d, m, hret, hshare, hshare ▸ (hpres 0 hlow).2⟩

/-- **A page that is not shared.** With the stack in the second of three pages, the third is not
mapped in the thread. -/
theorem heap_page_not_shared : ∃ (s : Machine) (d : Frame) (m : Mem),
    Reachable (Machine.step smallLayout) smallBoot s ∧
    (∀ n < pagesIn (s.kernel.proc 0).sz, n < UPAGES ∧
      (s.mem.pte (s.kernel.proc 0).pgdir n).p) ∧
    Returns (linkFirst s PGSIZE) s.mem (some d) m ∧
    ¬ SharesRest (s.kernel.proc 0).pgdir (s.kernel.proc 0).sz PGSIZE d s.mem m := by
  obtain ⟨s, d, -, m, -, hs, -, hsz, hpres, hret, hzero, -⟩ := exists_linked
  refine ⟨s, d, m, hs, hpres, hret, fun hshare => ?_⟩
  have htop : 2 < pagesIn (s.kernel.proc 0).sz := by
    rw [hsz]
    decide
  have hp := (hpres 2 htop).2
  rw [← hshare 2 htop (by decide) (by decide), hzero] at hp
  cases hp

end Xv6.Memory
