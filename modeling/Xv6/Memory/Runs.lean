import Xv6.Memory.Safety

/-! # Runs of the machine

Every step that meets the guard keeps the invariant of `Protection`, and so does every run from
boot.

* **`free_page_unmapped`** — in such a run no page on the free list is mapped in a live process, and
  no page is on the list twice. Without the guard this fails: `reaped_page_mapped` is a run in which
  `diagwait` frees the pages of a leader that one of its threads has linked.
* **`page_below_size_mapped`** — under the stronger guard every page below the size of a live
  process is mapped, and no call stops with one of the panics that a missing or an unexpected page
  causes. -/

namespace Xv6.Memory

open Foundation

variable (L : Layout)

/-! ## The guard -/

/-- **What a step must not do.** A call that frees pages frees none that is mapped elsewhere, and
`thread_create` is given an ordinary page. With `strict`, the calls also keep to the pages that the
size of the process says it has. -/
def Machine.Guard (strict : Prop) (s : Machine) (e : Machine.Event) : Prop :=
  match e.1 with
  | .userinit => ¬ strict
  | .table _ | .setEsp _ _ | .store _ _ _ | .fork _ => True
  | .threadCreate c stack =>
    ∀ cur, s.kernel.cpu c = some cur → LinkGuard (s.start e.2) cur (uint32 stack)
  | .sbrk c n => ∀ cur, s.kernel.cpu c = some cur → s.SbrkGuard strict cur n
  | .getpage c => ∀ cur, s.kernel.cpu c = some cur → s.GetpageGuard strict cur
  | .detachpage c loc => ∀ cur, s.kernel.cpu c = some cur → s.DetachGuard strict cur loc
  | .exec c _ _ => ∀ cur, s.kernel.cpu c = some cur → s.Private cur 0 UPAGES
  | .diagwait c => ∀ cur z, s.kernel.cpu c = some cur → waitReaps s.kernel cur = some z →
      s.Private z 0 UPAGES
  | .threadJoin c tid => ∀ cur z, s.kernel.cpu c = some cur → joinReaps s.kernel cur tid = some z →
      s.Private z (firstPage (uint32 ((pgRoundDown (s.kernel.proc cur).tf.esp : Int) - PGSIZE)))
        UPAGES

variable {strict : Prop} {s : Machine} {e : Machine.Event} {ncpu : Nat}

/-- **One action** under the guard keeps the invariant, and does not stop because of a page that is
used as two things at once. -/
theorem Machine.Ok.code (h : s.Ok strict) (hg : s.Guard strict e) :
    Ends (e.1.code L) (s.start e.2) (fun _ s' => s'.Ok strict) (Calm True strict) := by
  obtain ⟨a, refuse⟩ := e
  have hs := h.start refuse
  cases a with
  | userinit =>
    refine (userinit_ok L hs).imp ?_
    rintro _ s' ⟨p, -, hok⟩
    exact hok fun hst => absurd hst hg
  | table e =>
    dsimp only [Action.code]
    split
    · exact table_ok hs ‹_›
    · exact calm_disabled _ _ (s.start refuse)
  | setEsp c esp => exact setEsp_ok L hs esp
  | store c va b => exact store_ok hs va b
  | fork c => exact fork_ok L hs
  | threadCreate c stack =>
    exact threadCreate_ok L hs fun cur hcur => (hg cur hcur).safe L
  | sbrk c n => exact sbrk_ok L hs hg
  | getpage c => exact getpage_ok hs hg
  | detachpage c loc => exact detachpage_ok hs hg
  | exec c prog args => exact exec_ok L hs hg
  | diagwait c => exact diagwait_ok L hs hg
  | threadJoin c tid => exact threadJoin_ok L hs hg

theorem Machine.step_returns {s' : Machine} (h : s.step L e = some s') :
    Returns (e.1.code L) (s.start e.2) () s' := by
  unfold Machine.step at h
  unfold Returns
  split at h
  · rename_i heq
    rw [heq, Option.some.inj h]
  · cases h

/-- **One step** under the guard keeps the invariant. -/
theorem Machine.Ok.step {s' : Machine} (h : s.Ok strict) (hg : s.Guard strict e)
    (hs : s.step L e = some s') : s'.Ok strict :=
  (h.code L hg).of_returns (Machine.step_returns L hs)

/-! ## Boot -/

theorem mem_framesDown {lo n f : Nat} : f ∈ framesDown lo n ↔ lo ≤ f ∧ f < lo + n := by
  induction n with
  | zero => simp [framesDown]
  | succ n ih =>
    rw [framesDown, List.mem_cons, ih]
    omega

theorem nodup_framesDown (lo n : Nat) : (framesDown lo n).Nodup := by
  induction n with
  | zero => exact List.nodup_nil
  | succ n ih =>
    refine List.nodup_cons.2 ⟨fun h => ?_, ih⟩
    have := mem_framesDown.1 h
    omega

theorem mem_bootFree {f : Frame} : f ∈ bootFree L ncpu ↔ bootFreeFrame L ncpu f := by
  have h : 1024 + (PHYSTOP / PGSIZE - 1024) = PHYSTOP / PGSIZE := by decide
  rw [bootFree, List.mem_append, mem_framesDown, mem_framesDown, h, bootFreeFrame]

theorem bootFree_phys {n : Nat} (h : n ∈ bootFree L ncpu) : n * PGSIZE < PHYSTOP := by
  rw [bootFree, List.mem_append, mem_framesDown, mem_framesDown] at h
  unfold lowFrames at h
  unfold PHYSTOP PGSIZE at *
  omega

theorem nodup_bootFree (ncpu : Nat) : (bootFree L ncpu).Nodup := by
  refine (nodup_framesDown _ _).append (nodup_framesDown _ _) fun f h h' => ?_
  rw [mem_framesDown] at h h'
  -- the pages that are left below 4 MB end before the others start
  unfold lowFrames at h'
  omega

/-- **The machine at boot.** There is no process, and no page directory but the kernel's. -/
theorem boot_ok (strict : Prop) (ncpu : Nat) (byte : Frame → Nat → UInt8) :
    (Machine.boot L ncpu byte).Ok strict := by
  have hunused : ∀ p, ¬ (Machine.boot L ncpu byte).Used p := fun p h => by
    cases h
  have hpage : ∀ f, ((bootMem L ncpu byte).page f).isFree ↔ bootFreeFrame L ncpu f := fun f => by
    by_cases hf : bootFreeFrame L ncpu f <;> simp [bootMem, hf, Page.isFree]
  have hdir : ∀ f, ¬ ((Machine.boot L ncpu byte).mem.page f).isDir := fun f => by
    by_cases hf : bootFreeFrame L ncpu f <;> simp [Machine.boot, bootMem, hf, Page.isDir]
  have hphys : ∀ f, ((Machine.boot L ncpu byte).mem.page f).isKernel = false →
      f * PGSIZE < PHYSTOP := fun f hf => by
    by_cases hfree : bootFreeFrame L ncpu f
    · exact bootFree_phys L ((mem_bootFree L).2 hfree)
    · simp [Machine.boot, bootMem, hfree, Page.isKernel] at hf
  exact ⟨Kernel.boot_wf ncpu,
    ⟨⟨nodup_bootFree L ncpu, fun f => (mem_bootFree L).trans (hpage f).symm⟩,
      fun d hd => absurd hd (hdir d), hphys⟩,
    fun p hp => absurd hp (hunused p), fun p _ hp => absurd hp (hunused p),
    fun p _ hp => absurd hp (hunused p),
    fun d hd => absurd hd (hdir d)⟩

/-- **Every run** under the guard keeps the invariant. -/
theorem run_ok {byte : Frame → Nat → UInt8}
    (h : Run (Machine.step L) (Machine.Guard False) (Machine.boot L ncpu byte) s) : s.Ok False :=
  Run.invariant _ (boot_ok L False ncpu byte) (fun _ _ _ hs hg hstep => hs.step L hg hstep) h

/-! ## Free pages -/

/-- **No free page is mapped**, and none is on the free list twice. -/
theorem free_page_unmapped {ncpu : Nat} {byte : Frame → Nat → UInt8} {s : Machine}
    (h : Run (Machine.step L) (Machine.Guard False) (Machine.boot L ncpu byte) s) :
    s.mem.freelist.Nodup ∧ ∀ f ∈ s.mem.freelist, ∀ p, (s.kernel.proc p).state.live →
      ∀ n < UPAGES, (s.mem.pte (s.kernel.proc p).pgdir n).p →
        (s.mem.pte (s.kernel.proc p).pgdir n).ppn ≠ f := by
  have hok := run_ok L h
  refine ⟨hok.mem.free.nodup, fun f hf p hp n hn hpres heq => ?_⟩
  have hheld := hok.held p (ProcState.used_of_live hp)
  have hdata := (hok.mem.dirs _ hheld.dir).user n hn hpres
  have hfree := (hok.mem.free.mem_iff f).1 hf
  rw [heq] at hdata
  simp [Page.isData_of_isFree hfree] at hdata

/-! ## Deciding the guard -/

/-- The pages from `lo` to `hi` that are mapped, page table by page table. -/
def Mem.present (m : Mem) (d : Frame) (lo hi : Nat) : List Nat :=
  match (m.page d).entries with
  | none => []
  | some pgdir =>
    (List.range' (lo / 1024) ((hi + 1023) / 1024 - lo / 1024)).flatMap fun i =>
      if (pgdir i).p then
        match (m.page (pgdir i).ppn).entries with
        | none => []
        | some pgtab => (List.range' (i * 1024) 1024).filter fun n =>
          decide (lo ≤ n) && decide (n < hi) && (pgtab (n % 1024)).p
      else []

theorem Page.entries_of_entry {x : Page} {i : Nat} (h : (x.entry i).p) :
    x.entries = some x.entry := by
  cases x <;> first | rfl | cases h

theorem Mem.mem_present {m : Mem} {d : Frame} {lo hi n : Nat} :
    n ∈ m.present d lo hi ↔ lo ≤ n ∧ n < hi ∧ (m.pte d n).p := by
  unfold present
  constructor
  · intro h
    split at h
    · cases h
    rename_i pgdir hd
    rw [List.mem_flatMap] at h
    obtain ⟨i, -, hn⟩ := h
    split at hn
    swap
    · cases hn
    rename_i hp
    split at hn
    · cases hn
    · rename_i pgtab ht
      simp only [List.mem_filter, List.mem_range'_1, Bool.and_eq_true, decide_eq_true_eq] at hn
      obtain ⟨hi, ⟨hlo, hhi⟩, hpte⟩ := hn
      obtain rfl : n / 1024 = i := by omega
      refine ⟨hlo, hhi, ?_⟩
      rwa [Mem.pte, Mem.pde, Page.entry_of_entries hd, if_pos hp, Page.entry_of_entries ht]
  · rintro ⟨hlo, hhi, hp⟩
    have hpde : (m.pde d (n / 1024)).p := by
      by_contra hnot
      simp [Mem.pte, hnot] at hp
    rw [Mem.pte, if_pos hpde, Mem.pde] at hp
    rw [Mem.pde] at hpde
    rw [Page.entries_of_entry hpde]
    simp only [List.mem_flatMap, List.mem_range'_1]
    refine ⟨n / 1024, by omega, ?_⟩
    rw [if_pos hpde, Page.entries_of_entry hp]
    simp only [List.mem_filter, List.mem_range'_1]
    exact ⟨by omega, by simpa [hlo, hhi] using hp⟩

instance (s : Machine) (p : Slot) : Decidable (s.Used p) := inferInstanceAs (Decidable (_ = true))

instance (s : Machine) (p : Slot) (lo hi : Nat) : Decidable (s.Private p lo hi) :=
  decidable_of_iff (∀ n ∈ s.mem.present (s.kernel.proc p).pgdir lo hi, ∀ q, s.Used q →
      ∀ k ∈ s.mem.present (s.kernel.proc q).pgdir 0 UPAGES,
        (s.mem.pte (s.kernel.proc q).pgdir k).ppn = (s.mem.pte (s.kernel.proc p).pgdir n).ppn →
        q = p ∧ k = n) <| by
    simp only [Mem.mem_present, Machine.Private, and_imp, Nat.zero_le, true_imp_iff]
    exact forall₄_congr fun n _ _ _ => forall_congr' fun q =>
      ⟨fun h k hq => h hq k, fun h hq k => h k hq⟩

instance [Decidable strict] (cur : Slot) (loc : Nat) : Decidable (s.DetachGuard strict cur loc) :=
  decidable_of_iff (strict → ∀ n ∈ uint32 loc / PGSIZE :: if uint32 loc % PGSIZE = 0 then [] else
      [uint32 (pgRoundDown (uint32 loc) + PGSIZE) / PGSIZE],
        pagesIn (s.kernel.proc cur).sz ≤ n ∧ (s.mem.pte (s.kernel.proc cur).pgdir n).ppn ≠ 0) <| by
    unfold Machine.DetachGuard Touches
    split <;> simp [*]

instance [Decidable strict] (s : Machine) (e : Machine.Event) : Decidable (s.Guard strict e) := by
  unfold Machine.Guard LinkGuard Machine.SbrkGuard Machine.GetpageGuard
  split <;> infer_instance

/-- A kernel of about 1 MB, with a program of one byte for the first process. -/
def smallLayout : Layout := ⟨0x115000, 0x109000, [0]⟩

/-- The machine at boot with one CPU and a memory of zeros. -/
def smallBoot : Machine := Machine.boot smallLayout 1 fun _ _ => 0

theorem exists_ok_of_runs (es : List Machine.Event) (p : Machine → Bool)
    (h : (runs (Machine.step smallLayout) (Machine.Guard False) smallBoot es).map p = some true) :
    ∃ s, Run (Machine.step smallLayout) (Machine.Guard False) smallBoot s ∧
      s.Ok False ∧ p s = true := by
  obtain ⟨s, hrun, hs⟩ := exists_run_of_runs _ _ smallBoot es p h
  exact ⟨s, hrun, run_ok smallLayout hrun, hs⟩

theorem Machine.Guard.weaken (h : s.Guard True e) : s.Guard False e := by
  obtain ⟨a, refuse⟩ := e
  cases a with
  | userinit => exact id
  | table e | setEsp c esp | store c va b | fork c => trivial
  | threadCreate c stack | exec c prog args | diagwait c | threadJoin c tid => exact h
  | sbrk c n =>
    exact fun cur hcur => ⟨fun hpos hlt => ⟨((h cur hcur).1 hpos hlt).1, False.elim⟩,
      fun hneg => ⟨((h cur hcur).2 hneg).1, False.elim⟩⟩
  | getpage c | detachpage c loc => exact fun _ _ => False.elim

/-- The first process grows and shrinks. It forks, and the child runs another program, exits and is
reaped. Then the process gets a page, detaches it, makes it the stack of a thread, joins the thread,
and forks again. -/
def busy : List Machine.Event :=
  [.table (.dispatch 0 0), .setEsp 0 100, .sbrk 0 12288, .sbrk 0 (-4096), .fork 0,
    .table (.call 0 .yield), .table (.dispatch 0 1), .exec 0 (some ⟨true, [], 0⟩) [],
    .table (.call 0 .exit), .table (.dispatch 0 0), .diagwait 0, .setEsp 0 8300, .getpage 0,
    .detachpage 0 12288, .threadCreate 0 (57203 * PGSIZE + KERNBASE + 4092),
    .table (.call 0 .yield), .table (.dispatch 0 1), .table (.call 0 .exit),
    .table (.dispatch 0 0), .threadJoin 0 3, .fork 0].map (·, [])

theorem busy_evaluated : ((smallBoot.step smallLayout (.userinit, [])).map fun s =>
    decide (s.kernel.initproc = some 0 ∧ (s.mem.pte (s.kernel.proc 0).pgdir 0).p = true) &&
    ((runs (Machine.step smallLayout) (Machine.Guard True) s busy).map fun s =>
      decide ((s.kernel.proc 0).state.live = true ∧ (s.kernel.proc 1).state.live = true ∧
        (s.kernel.proc 1).sz = 3 * PGSIZE ∧ s.mem.freelist ≠ [])) = some true) = some true := by
  decide +kernel

theorem busy_runs : ∃ s₀ s, smallBoot.step smallLayout (.userinit, []) = some s₀ ∧
    (∀ p, s₀.kernel.initproc = some p → (s₀.mem.pte (s₀.kernel.proc p).pgdir 0).p) ∧
    Run (Machine.step smallLayout) (Machine.Guard True) s₀ s ∧
    (s.kernel.proc 0).state.live = true ∧ (s.kernel.proc 1).state.live = true ∧
    (s.kernel.proc 1).sz = 3 * PGSIZE ∧ s.mem.freelist ≠ [] := by
  obtain ⟨s0, hs0, hok⟩ := Option.map_eq_some_iff.1 busy_evaluated
  obtain ⟨hfirst, hrest⟩ := Bool.and_eq_true_iff.1 hok
  obtain ⟨hinit, hpage⟩ := of_decide_eq_true hfirst
  obtain ⟨s, hrun, hs⟩ := exists_run_of_runs _ _ s0 _ _ (of_decide_eq_true hrest)
  obtain ⟨hlive0, hlive, hsz, hfree⟩ := of_decide_eq_true hs
  refine ⟨s0, s, hs0, fun p hp => ?_, hrun, hlive0, hlive, hsz, hfree⟩
  obtain rfl := Option.some.inj (hinit.symm.trans hp)
  exact hpage

theorem busy_from_boot : ∃ s, Run (Machine.step smallLayout) (Machine.Guard False) smallBoot s ∧
    (s.kernel.proc 0).state.live = true ∧ (s.kernel.proc 1).state.live = true ∧
    s.mem.freelist ≠ [] := by
  obtain ⟨s0, s, hs0, -, hrun, hlive0, hlive, -, hfree⟩ := busy_runs
  exact ⟨s, .trans (.next _ .refl id hs0) (hrun.mono fun _ _ => Machine.Guard.weaken),
    hlive0, hlive, hfree⟩

/-- The free pages after a run with all the calls. -/
theorem free_page_unmapped_busy :
    ∃ s, Run (Machine.step smallLayout) (Machine.Guard False) smallBoot s ∧
      (s.kernel.proc 1).state.live = true ∧ s.mem.freelist ≠ [] ∧ s.mem.freelist.Nodup ∧
      ∀ f ∈ s.mem.freelist, ∀ p, (s.kernel.proc p).state.live →
        ∀ n < UPAGES, (s.mem.pte (s.kernel.proc p).pgdir n).p →
          (s.mem.pte (s.kernel.proc p).pgdir n).ppn ≠ f := by
  obtain ⟨s, hrun, -, hlive, hfree⟩ := busy_from_boot
  exact ⟨s, hrun, hlive, hfree, free_page_unmapped smallLayout hrun⟩

/-- **A free page that is mapped.** The first process forks; the child makes a thread, which links
its first page, and exits; the parent reaps the child and frees that page while the thread is
alive. -/
theorem reaped_page_mapped : ∃ s, Reachable (Machine.step smallLayout) smallBoot s ∧
    ∃ f ∈ s.mem.freelist, (s.kernel.proc 2).state.live = true ∧
      (s.mem.pte (s.kernel.proc 2).pgdir 0).p = true ∧
      (s.mem.pte (s.kernel.proc 2).pgdir 0).ppn = f := by
  obtain ⟨s, hrun, hs⟩ := exists_run_of_runs (Machine.step smallLayout) (fun _ _ => True) smallBoot
    [(.userinit, []), (.table (.dispatch 0 0), []), (.setEsp 0 100, []), (.fork 0, []),
      (.table (.call 0 .yield), []), (.table (.dispatch 0 1), []), (.threadCreate 0 0, []),
      (.table (.call 0 .exit), []), (.table (.dispatch 0 0), []), (.diagwait 0, [])]
    (fun s => decide ((s.mem.pte (s.kernel.proc 2).pgdir 0).ppn ∈ s.mem.freelist ∧
      (s.kernel.proc 2).state.live = true ∧ (s.mem.pte (s.kernel.proc 2).pgdir 0).p = true))
    (by decide +kernel)
  obtain ⟨hf, hlive, hp⟩ := of_decide_eq_true hs
  exact ⟨s, hrun, _, hf, hlive, hp, rfl⟩

/-- **What user code reaches** is ordinary memory: no page table, page directory or kernel stack,
and nothing free. The directory and the kernel stack of a process are its own, and no directory is
left without a process. -/
theorem user_pages_plain {ncpu : Nat} {byte : Frame → Nat → UInt8} {s : Machine}
    (h : Run (Machine.step L) (Machine.Guard False) (Machine.boot L ncpu byte) s) :
    (∀ d, (s.mem.page d).isDir ↔ ∃ p, s.Used p ∧ (s.kernel.proc p).pgdir = d) ∧
    ∀ p, s.Used p → (∀ n < UPAGES, (s.mem.pte (s.kernel.proc p).pgdir n).p →
        (s.mem.page (s.mem.pte (s.kernel.proc p).pgdir n).ppn).isData) ∧
      ∀ q ≠ p, s.Used q → (s.kernel.proc q).pgdir ≠ (s.kernel.proc p).pgdir ∧
        (s.kernel.proc q).kstack ≠ (s.kernel.proc p).kstack := by
  have hok := run_ok L h
  refine ⟨fun d => ⟨hok.owned d, ?_⟩, fun p hp => ⟨(hok.mem.dirs _ (hok.held p hp).dir).user,
    fun q hne hq => ?_⟩⟩
  · rintro ⟨p, hp, rfl⟩
    exact (hok.held p hp).dir
  · exact ⟨fun heq => hne (hok.dirInj q p hq hp heq), fun heq => hne (hok.stackInj q p hq hp heq)⟩

/-- The address spaces of two processes after a run with all the calls. -/
theorem user_pages_plain_busy :
    ∃ s, Run (Machine.step smallLayout) (Machine.Guard False) smallBoot s ∧ s.Used 0 ∧ s.Used 1 ∧
      (∀ n < UPAGES, (s.mem.pte (s.kernel.proc 0).pgdir n).p →
        (s.mem.page (s.mem.pte (s.kernel.proc 0).pgdir n).ppn).isData) ∧
      (s.kernel.proc 1).pgdir ≠ (s.kernel.proc 0).pgdir := by
  obtain ⟨s, hrun, hlive0, hlive, -⟩ := busy_from_boot
  have hused0 : s.Used 0 := ProcState.used_of_live hlive0
  have hused : s.Used 1 := ProcState.used_of_live hlive
  obtain ⟨hplain, hother⟩ := (user_pages_plain smallLayout hrun).2 0 hused0
  exact ⟨s, hrun, hused0, hused, hplain, (hother 1 (by decide) hused).1⟩

/-! ## Pages below the size -/

/-- Why the kernel stops in the action of `e`, if it does. -/
def Machine.stops (s : Machine) (e : Machine.Event) : Option Stop :=
  match (Foundation.exec (e.1.code L) (s.start e.2)).1 with
  | .error stop => some stop
  | .ok _ => none

/-- **Every page below the size of a live process is mapped**, if the page of the first process was
mapped at boot; and then no call stops with one of the panics that a page causes which is missing,
or is there already. -/
theorem page_below_size_mapped {ncpu : Nat} {byte : Frame → Nat → UInt8} {refuse : List Bool}
    {s₀ s : Machine} (hboot : (Machine.boot L ncpu byte).step L (.userinit, refuse) = some s₀)
    (hpage : ∀ p, s₀.kernel.initproc = some p → (s₀.mem.pte (s₀.kernel.proc p).pgdir 0).p)
    (h : Run (Machine.step L) (Machine.Guard True) s₀ s) :
    (∀ p, (s.kernel.proc p).state.live → ∀ va, va % PGSIZE = 0 → va < (s.kernel.proc p).sz →
      (s.mem.pte (s.kernel.proc p).pgdir (va / PGSIZE)).p) ∧
    ∀ e, s.Guard True e → ∀ stop, s.stops L e = some stop → stop.hole = false := by
  obtain ⟨p, hp, hinit⟩ := (userinit_ok L ((boot_ok L True ncpu byte).start refuse)).of_returns
    (Machine.step_returns L hboot)
  have h0 : s₀.Ok True := hinit fun _ => hpage p hp
  have hok : s.Ok True := Run.invariant _ h0 (fun _ _ _ hs hg hstep => hs.step L hg hstep) h
  refine ⟨fun p hp va hva hlt => ?_, fun e hg stop hstop => ?_⟩
  · have hheld := hok.held p (ProcState.used_of_live hp)
    refine hheld.covered trivial _ (lt_pagesIn.2 ?_)
    rwa [Nat.div_mul_cancel (Nat.dvd_of_mod_eq_zero hva)]
  · have hcode := hok.code L hg
    unfold Ends at hcode
    unfold Machine.stops at hstop
    rcases hexec : Foundation.exec (e.1.code L) (s.start e.2) with ⟨stop' | _, s'⟩
    · rw [hexec] at hcode hstop
      exact Option.some.inj hstop ▸ (hcode trivial).2 trivial
    · rw [hexec] at hstop
      cases hstop

/-- The pages of a process after a run with all the calls. -/
theorem page_below_size_mapped_busy :
    ∃ s₀ s, smallBoot.step smallLayout (.userinit, []) = some s₀ ∧
      Run (Machine.step smallLayout) (Machine.Guard True) s₀ s ∧
        (s.kernel.proc 1).state.live = true ∧
      (s.mem.pte (s.kernel.proc 1).pgdir 2).p ∧
      ∀ e, s.Guard True e → ∀ stop, s.stops smallLayout e = some stop → stop.hole = false := by
  obtain ⟨s0, s, hs0, hpage, hrun, -, hlive, hsz, -⟩ := busy_runs
  obtain ⟨hmapped, hcalm⟩ := page_below_size_mapped smallLayout hs0 hpage hrun
  exact ⟨s0, s, hs0, hrun, hlive, hmapped 1 hlive (2 * PGSIZE) (by decide) (by rw [hsz]; decide),
    hcalm⟩

/-- **A page below the size that is not mapped**, and the panic that follows: the first process
grows by a page, detaches it and calls `fork`. -/
theorem detached_page_panics : ∃ s, Reachable (Machine.step smallLayout) smallBoot s ∧
    (s.kernel.proc 0).state.live = true ∧ PGSIZE < (s.kernel.proc 0).sz ∧
    (s.mem.pte (s.kernel.proc 0).pgdir 1).p = false ∧
    s.stops smallLayout (.fork 0, []) = some (.panic "copyuvm: page not present") := by
  obtain ⟨s, hrun, hs⟩ := exists_run_of_runs (Machine.step smallLayout) (fun _ _ => True) smallBoot
    [(.userinit, []), (.table (.dispatch 0 0), []), (.setEsp 0 100, []), (.sbrk 0 4096, []),
      (.detachpage 0 4096, [])]
    (fun s => decide ((s.kernel.proc 0).state.live = true ∧ PGSIZE < (s.kernel.proc 0).sz ∧
      (s.mem.pte (s.kernel.proc 0).pgdir 1).p = false ∧
      s.stops smallLayout (.fork 0, []) = some (.panic "copyuvm: page not present")))
    (by decide +kernel)
  exact ⟨s, hrun, of_decide_eq_true hs⟩

end Xv6.Memory
