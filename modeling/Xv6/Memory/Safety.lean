import Xv6.Memory.Protection
import Xv6.Memory.Supply

/-! # Creating, replacing and reaping address spaces

The system calls that give a process a new address space or take one down keep the invariant of
`Protection`.

* **`create_ok`** — `fork` and `thread_create`, from what is known of the address space that they
  build. -/

namespace Xv6.Memory

open Foundation Created

variable (L : Layout)

/-! ## Creation -/

section

variable {strict : Prop} {s : Machine} {c : Nat} {cur np : Slot} {thread : Bool}

/-- **A new address space** that was built since `m`. -/
structure NewSpace (strict : Prop) (m m' : Mem) (d sz : Nat) (tf : TrapFrame) : Prop where
  building : Building d m m'
  free : m'.FreeOk
  user : ∀ n < UPAGES, (m'.pte d n).p → (m'.page (m'.pte d n).ppn).isData
  size : sz ≤ KERNBASE
  esp : tf.esp < 2 ^ 32
  covered : strict → ∀ n < pagesIn sz, (m'.pte d n).p

theorem keeps_take {m : Mem} {f : Frame} {b : Nat → UInt8} (hf : (m.page f).isFree) :
    Keeps (fun _ => False) m ((m.asked.grant f).setPage f (.kernel b)) :=
  fun g hg _ => by
    have hne : g ≠ f := by
      rintro rfl
      simp [hf] at hg
    simpa [put_of_ne hne] using .refl _

theorem Machine.Ok.add (h : s.Ok strict) {k' : Kernel} {f d sz : Nat} {tf : TrapFrame} {fp : Int}
    {m1 m' : Mem} (hunused : ¬ s.Used np) (hwf : k'.Wf)
    (hspace : ∀ q ≠ np, (k'.proc q).space = (s.kernel.proc q).space)
    (hself : (k'.proc np).space = ⟨d, f, sz, tf, fp, true⟩) (hf : (s.mem.page f).isFree)
    (hsp1 : ∀ d f, s.mem.Spares m1 d f) (hstack : (m1.page f).isKernel)
    (hnew : NewSpace strict m1 m' d sz tf) : Ok strict ⟨k', m'⟩ := by
  have hsp : s.mem.Spares m' d f :=
    (hsp1 d f).trans ((hsp1 d f).ok.building hnew.building hnew.free hnew.user f)
  have hfree : (m1.page d).isFree := hnew.building.fresh d (.inl rfl)
  have hne : ∀ g : Frame, g ≠ g + 1 := fun g => (Nat.succ_ne_self g).symm
  -- the directory and the stack were free, so that no one else has them
  have hd : ∀ q, s.Used q → (s.kernel.proc q).pgdir ≠ d := by
    rintro q hu rfl
    have := ((hsp1 _ 0).dir _ (hne _)).2 (h.held q hu).dir
    simp [Page.isDir_of_isFree hfree] at this
  have hst : ∀ q, s.Used q → (s.kernel.proc q).kstack ≠ f := by
    rintro q hu rfl
    simp [Page.isFree_of_isKernel (h.held q hu).stack] at hf
  simp only [Proc.space, Space.mk.injEq] at hself
  obtain ⟨hpgdir, hkstack, hsz, htf, -, hused⟩ := hself
  refine h.replace np hwf hsp.ok hspace
    (h.spared hsp (fun q _ => hd q) fun q _ => hst q) (fun _ => ⟨?_, fun q _ hu => ?_⟩)
    fun g hg => ?_
  · refine ⟨?_, ?_, hsz ▸ hnew.size, htf ▸ hnew.esp, ?_⟩
    · rw [hpgdir]
      exact hnew.building.tree.dir
    · rw [hkstack]
      exact hnew.building.keeps.kernel hstack fun h => h
    · rw [hpgdir, hsz]
      exact hnew.covered
  · rw [hpgdir, hkstack]
    exact ⟨hd q hu, hst q hu⟩
  · rcases hnew.building.dirs g hg with rfl | hold
    · exact .inl ⟨hused, hpgdir⟩
    · exact .inr ⟨((hsp1 _ 0).dir g (hne g)).1 hold, fun hu => absurd hu hunused⟩

section

variable (h : s.Ok strict) (hcur : s.kernel.cpu c = some cur) (hctl : s.kernel.ctl cur = .user)
  (hnp : (s.kernel.proc np).state = .unused)
include h hcur hctl hnp

theorem givenUp_ok {g : Proc → Proc} (hs : ∀ x, (g x).state = x.state)
    (hc : ∀ x, (g x).chan = x.chan) {f : Frame} {m' : Mem} (hsp : ∀ d, s.mem.Spares m' d f)
    (hf : (s.mem.page f).isKernel = false) :
    Machine.Ok strict ⟨givenUp ((begun s.kernel cur np thread).modify np g) cur np, m'⟩ := by
  have hself : ((givenUp ((begun s.kernel cur np thread).modify np g) cur np).proc
      np).state.used = false := by
    rw [Kernel.givenUp_self]
    rfl
  have hunused : ¬ s.Used np := by simp [Machine.Used, hnp, ProcState.used]
  have hne : ∀ g : Frame, g ≠ g + 1 := fun g => (Nat.succ_ne_self g).symm
  refine h.replace np (Kernel.wf_givenUp h.wf hcur hctl hnp hs hc) (hsp 0).ok
    (fun q hq => by rw [Kernel.givenUp_proc hq]) (fun q hq hu => ?_)
    (fun hu => absurd hu (by simp [hself])) fun g hg => ?_
  · have hheld := h.held q hu
    refine ⟨((hsp _).dir _ (hne _)).2 hheld.dir, (hsp 0).kernel _ ?_ hheld.stack,
      (hsp _).pte _ (hne _) hheld.dir⟩
    rintro rfl
    exact absurd hheld.stack (by simp [hf])
  · exact .inr ⟨((hsp _).dir g (hne g)).1 hg, fun hu => absurd hu hunused⟩

theorem launched_ok {f d sz : Nat} {tf : TrapFrame} {m1 m' : Mem}
    (hf : (s.mem.page f).isFree) (hsp1 : ∀ d f, s.mem.Spares m1 d f)
    (hstack : (m1.page f).isKernel) (hnew : NewSpace strict m1 m' d sz tf) :
    Machine.Ok strict ⟨launched (((begun s.kernel cur np thread).modify np (withStack f)).modify np
      (withSpace d sz tf)) cur np thread, m'⟩ := by
  have hunused : ¬ s.Used np := by simp [Machine.Used, hnp, ProcState.used]
  have hne : cur ≠ np := by
    rintro rfl
    exact hunused (h.used hcur)
  exact h.add hunused (Kernel.wf_launched h.wf hcur hctl hnp)
    (fun q hq => by rw [Kernel.launched_proc hq]) (Kernel.launched_self hne) hf hsp1 hstack hnew

end

/-- **`fork` and `thread_create`**, from what is known of the address space that they build. -/
theorem create_ok (h : s.Ok strict) {build : Proc → Code (Option (Frame × Nat × TrapFrame))}
    (hbuild : ∀ cur f m, s.kernel.cpu c = some cur → Returns kalloc s.mem (some f) m →
      let m1 := m.setPage f (.kernel (m.page f).byte)
      m1.Ok → Held strict m1 (s.kernel.proc cur) → Keeps (fun _ => False) s.mem m1 →
      Ends (build (s.kernel.proc cur)) m1
        (fun r m' => (r = none → Restored m1 m') ∧
          ∀ d sz tf, r = some (d, sz, tf) → NewSpace strict m1 m' d sz tf) (Calm True strict)) :
    Ends (create L c thread build) s (fun _ s' => s'.Ok strict) (Calm True strict) := by
  refine create_ends h fun cur np hcur hctl hnp => ?_
  have hu := h.used hcur
  have hne : cur ≠ np := by
    rintro rfl
    simp [Machine.Used, hnp, ProcState.used] at hu
  refine (kalloc_ends (Q := fun r m => (r = none → m = s.mem.asked) ∧ ∀ f, r = some f →
      (s.mem.page f).isFree ∧ m = s.mem.asked.grant f ∧ ∃ fs, s.mem.freelist = f :: fs)
    (.inl h.mem.free) ?_ fun f fs hl hf => ?_).and_returns.imp ?_
  · exact ⟨fun _ => rfl, by simp⟩
  · exact ⟨by simp, fun g hg => by cases hg; exact ⟨hf, rfl, fs, hl⟩⟩
  rintro (_ | f) m ⟨⟨hnone, hsome⟩, hret⟩
  · rw [hnone rfl]
    -- any page that is not the kernel's will do for the one that is not spared
    have hdir := (h.held cur hu).dir
    rw [← Kernel.modify_id (begun s.kernel cur np thread) np]
    exact givenUp_ok h hcur hctl hnp (g := id) (fun _ => rfl) (fun _ => rfl)
      (fun d => h.mem.data (.asked s.mem) d _) (Page.isKernel_of_isDir hdir)
  obtain ⟨hf, rfl, fs, hl⟩ := hsome f rfl
  have hrec : ((begun s.kernel cur np thread).modify np (withStack f)).proc cur =
      s.kernel.proc cur := by
    simp [begun, hne]
  dsimp only
  rw [hrec]
  have hbuild := hbuild cur f _ hcur hret
  set m1 := (s.mem.asked.grant f).setPage f (.kernel ((s.mem.asked.grant f).page f).byte)
  have hsp1 : ∀ d f, s.mem.Spares m1 d f := h.mem.take hl hf
  have hkeeps : Keeps (fun _ => False) s.mem m1 := keeps_take hf
  have hheld : Held strict m1 (s.kernel.proc cur) := by
    have hold := h.held cur hu
    exact Machine.Held.congr hold rfl (hkeeps.dir hold.dir fun h => h)
      (hkeeps.kernel hold.stack fun h => h)
      (hkeeps.pte (h.mem.dirs _ hold.dir).tree fun _ _ h => h)
  have hstack : (m1.page f).isKernel := by simp [m1, Page.isKernel]
  refine (hbuild (hsp1 0 0).ok hheld hkeeps).imp ?_
  rintro (_ | ⟨d, sz, tf⟩) m' ⟨hnone, hsome⟩
  · have hsp := fun d => (hsp1 d f).trans ((hsp1 d f).ok.restored (hnone rfl) d f)
    have hker := (hnone rfl).keeps.kernel hstack fun h => h
    refine kfree_ends L ?_
    exact givenUp_ok h hcur hctl hnp (g := withStack f) (fun _ => rfl) (fun _ => rfl)
      (fun d => (hsp d).trans ((hsp d).ok.release hker
        (h.mem.phys f (Page.isKernel_of_isFree hf)) d)) (Page.isKernel_of_isFree hf)
  · exact launched_ok h hcur hctl hnp hf hsp1 hstack (hsome d sz tf rfl)

theorem Image.newSpace {L : Layout} {m m' : Mem} {d sz : Nat} {tf : TrapFrame}
    (h : Image L (pagesIn sz) d m m') (hesp : tf.esp < 2 ^ 32) : NewSpace strict m m' d sz tf where
  building := h.toBuilding
  free := h.free
  user n hn hp := (h.own n hn hp).2
  size := pagesIn_le.1 h.bound
  esp := hesp
  covered _ := h.below

theorem fork_ok (h : s.Ok strict) :
    Ends (fork L c) s (fun _ s' => s'.Ok strict) (Calm True strict) := by
  refine create_ok L h fun cur f m _ _ hm hheld _ => ?_
  simp only [forkSpace, ends_bind]
  refine (copyuvm_spec L hm.free (hm.dirs _ hheld.dir).tree fun hst n hn =>
    ⟨hn.trans_le (pagesIn_le.2 hheld.size), hheld.covered hst n hn⟩).imp ?_
  rintro (_ | d) m' ⟨hnone, hsome⟩
  · exact ⟨fun _ => hnone rfl, by simp⟩
  · refine ⟨by simp, fun d' sz tf heq => ?_⟩
    simp only [Option.some.injEq, Prod.mk.injEq] at heq
    obtain ⟨rfl, rfl, rfl⟩ := heq
    exact (hsome d rfl).newSpace hheld.esp

/-! ## Threads -/

/-- **The condition on `thread_create(stack)`.** If the loop of `linkuvm` gets to the caller's
stack, `stack` is the address of a word in an ordinary page. If the loop links pages, and there is
memory for the kernel stack, then there is also enough for the directory with its kernel half and
for two pages per page of the caller. -/
def LinkGuard (s : Machine) (cur : Slot) (stack : Nat) : Prop :=
  let x := s.kernel.proc cur
  let origStackBeg := pgRoundDown x.tf.esp
  (StackReached x.sz origStackBeg →
    (s.mem.page (v2p (pgRoundDown stack))).isData ∧ stack % 4 = 0) ∧
  (Links origStackBeg 0 → s.mem.Supplies 1 →
    s.mem.Supplies (2 * pagesIn x.sz + (kernelTables.length + 2)))

/-- `thread_create(stack)` maps an ordinary page, and does not fail after it has linked pages. -/
def LinkSafe (s : Machine) (cur : Slot) (stack : Nat) : Prop :=
  let x := s.kernel.proc cur
  let origStackBeg := pgRoundDown x.tf.esp
  (StackReached x.sz origStackBeg →
    (s.mem.page (v2p (pgRoundDown stack))).isData ∧ stack % 4 = 0) ∧
  ∀ f m d m1 m2, Returns kalloc s.mem (some f) m →
    Returns (setupkvm L) (m.setPage f (.kernel (m.page f).byte)) (some d) m1 →
    Returns (linkAll L x.pgdir x.sz origStackBeg stack d) m1 (some false) m2 →
    Links origStackBeg 0 → (m2.pte d 0).p = false

theorem LinkGuard.safe {s : Machine} {cur : Slot} {stack : Nat} (h : LinkGuard s cur stack) :
    LinkSafe L s cur stack := by
  refine ⟨h.1, fun f m d m1 m2 hkalloc hsetup hlink hl => ?_⟩
  obtain ⟨hfirst, hspent⟩ := (kalloc_supply.of_returns hkalloc).2 (by simp)
  have htables := (setupkvm_supply L).of_returns hsetup d rfl
  have hall : m1.Supplies _ := htables _ (hspent _ (h.2 hl hfirst))
  exact absurd rfl ((linkAll_supplied L hall).of_returns hlink)

/-- `V2P` subtracts `KERNBASE` from an address of the kernel; from a user address it wraps
around. -/
theorem v2p_eq {a : Nat} (h32 : a < 2 ^ 32) :
    v2p a = (if KERNBASE ≤ a then a - KERNBASE else a + KERNBASE) / PGSIZE := by
  unfold v2p
  congr 1
  split
  · exact uint32_eq (by omega) (by omega)
  · unfold uint32 KERNBASE at *
    omega

theorem v2p_page {a j : Nat} (ha : a % PGSIZE = 0) (h32 : a < 2 ^ 32) (hj : j < PGSIZE)
    (hphys : v2p a * PGSIZE < PHYSTOP) :
    KERNBASE ≤ uint32 (a + j) ∧ uint32 (a + j) < KERNBASE + PHYSTOP ∧
      (uint32 (a + j) - KERNBASE) / PGSIZE = v2p a := by
  have hu : uint32 (a + j) = a + j := by
    refine uint32_eq (by simp) ?_
    unfold PGSIZE at *
    omega
  rw [hu, v2p_eq h32]
  rw [v2p_eq h32] at hphys
  change (_ : Nat) < _ at hphys
  unfold KERNBASE PHYSTOP PGSIZE at *
  split at hphys
  · rw [if_pos ‹_›]
    omega
  · omega

theorem movable_page {m : Mem} {pgdir stack orig : Nat} (hm : m.Ok) (hdir : (m.page pgdir).isDir)
    (horig : orig % PGSIZE = 0) (hlt : orig / PGSIZE < UPAGES) (hstack : stack < 2 ^ 32)
    (hal : stack % 4 = 0) (hdata : (m.page (v2p (pgRoundDown stack))).isData) :
    m.Movable pgdir stack orig := by
  have hphys := hm.phys _ (Page.isKernel_of_isData hdata)
  have hend : moveEnd stack = PGSIZE := by
    unfold moveEnd PGSIZE
    omega
  intro j hj
  rw [hend] at hj
  constructor
  · intro f w hf
    have hva := v2p_page (pgRoundDown_mod stack) ((pgRoundDown_le stack).trans_lt hstack) hj hphys
    rw [Mem.frameAt, if_neg (by omega), if_pos hva.2.1, hva.2.2] at hf
    cases hf
    exact hdata
  · intro f w hf
    have hva : uint32 (orig + j) < KERNBASE ∧ uint32 (orig + j) / PGSIZE = orig / PGSIZE := by
      unfold uint32
      unfold UPAGES KERNBASE PGSIZE at *
      omega
    rw [Mem.frameAt, if_pos hva.1, hva.2] at hf
    split at hf
    · cases hf
      exact (hm.dirs _ hdir).user _ hlt ‹_›
    · cases hf

/-- The stack pointer of a call that may read its first argument is below the size, or at the very
end of the address space. -/
theorem argint_esp {x : Proc} (hesp : x.tf.esp < 2 ^ 32) (h : argint x) :
    x.tf.esp < x.sz ∨ pgRoundDown x.tf.esp = 2 ^ 32 - PGSIZE := by
  have h4 := h.1
  unfold uint32 at h4
  unfold pgRoundDown PGSIZE
  omega

section

variable {m m' : Mem} {pgdir sz orig stack d k : Nat} {top : Pte} {held : Option Frame}

theorem Linking.user {L : Layout} (h : Linking L pgdir orig k top held d m m') (ht : m.DirOk pgdir)
    (htop : top.p → (m.page top.ppn).isData) (n : Nat) (hn : n < UPAGES) (hp : (m'.pte d n).p) :
    (m'.page (m'.pte d n).ppn).isData := by
  have hkeep : ∀ {g}, (m.page g).isData → (m'.page g).isData := fun hg =>
    (h.building.keeps _ (Page.isFree_of_isData hg) fun h => h).isData.trans hg
  rcases Nat.lt_or_ge n k with hlt | hge
  · by_cases hl : Links orig n
    · obtain ⟨hp', heq⟩ := h.linked n hlt hl
      rw [heq]
      exact hkeep (ht.user n hn hp')
    · obtain ⟨-, g, heq, -, hdata⟩ := h.guard n hlt hl
      rwa [heq]
  · rw [h.rest n hge hn] at hp ⊢
    split
    · rw [if_pos ‹_›] at hp
      exact hkeep (htop hp)
    · rw [if_neg ‹_›] at hp
      cases hp

theorem Linking.covered {L : Layout} (h : Linking L pgdir orig k top held d m m') {n : Nat}
    (hn : n < k) : (m'.pte d n).p := by
  by_cases hl : Links orig n
  · obtain ⟨hp, heq⟩ := h.linked n hn hl
    rwa [heq]
  · obtain ⟨-, g, heq, -⟩ := h.guard n hn hl
    rw [heq]

theorem Linked.newSpace {L : Layout} {tf : TrapFrame} (hm : m'.FreeOk) (ht : m.DirOk pgdir)
    (horig : orig % PGSIZE = 0) (h32 : orig < 2 ^ 32) (hsz : sz ≤ KERNBASE)
    (hesp : orig < sz ∨ orig = 2 ^ 32 - PGSIZE) (htf : tf.esp < 2 ^ 32)
    (hstack : StackReached sz orig → (m.page (v2p (pgRoundDown stack))).isData)
    (h : Linked L pgdir sz orig stack d m m') :
    NewSpace strict m m' d (uint32 (orig + PGSIZE)) tf := by
  have hsize : uint32 (orig + PGSIZE) ≤ KERNBASE := by
    unfold uint32
    unfold KERNBASE PGSIZE at *
    omega
  rcases h with ⟨hlink, hnot⟩ | ⟨hlink, hreach, hlt⟩
  · refine ⟨hlink.building, hm, hlink.user ht (by simp), hsize, htf, fun _ n hn => ?_⟩
    -- the stack was not reached, so it is in the first page or at the very end
    refine hlink.covered ?_
    rw [lt_pagesIn] at hn ⊢
    unfold StackReached uint32 at *
    unfold KERNBASE PGSIZE at *
    omega
  · refine ⟨hlink.building, hm, hlink.user ht fun _ => hstack hreach, hsize, htf, fun _ n hn => ?_⟩
    have hle : n ≤ orig / PGSIZE := by
      rw [lt_pagesIn] at hn
      unfold uint32 at hn
      unfold PGSIZE at *
      omega
    rcases hle.lt_or_eq with hlt' | rfl
    · exact hlink.covered hlt'
    · rw [hlink.rest _ le_rfl hlt, if_pos rfl]

end

section

variable (h : s.Ok strict)

include h

theorem threadCreate_ok {stack : Nat}
    (hg : ∀ cur, s.kernel.cpu c = some cur → LinkSafe L s cur (uint32 stack)) :
    Ends (sysThreadCreate L c stack) s (fun _ s' => s'.Ok strict) (Calm True strict) := by
  simp only [sysThreadCreate, ends_bind]
  refine caller_ends fun cur hcur _ => ?_
  simp only [ends_procOf, ends_onlyIf]
  refine ⟨fun harg => ?_, fun _ => h⟩
  refine create_ok L h fun cur' f m hcur' hret hm hheld hkeeps => ?_
  obtain rfl : cur = cur' := Option.some.inj (hcur.symm.trans hcur')
  obtain ⟨hstack, hbad⟩ := hg cur hcur
  have horig := pgRoundDown_mod (s.kernel.proc cur).tf.esp
  have h32 := (pgRoundDown_le (s.kernel.proc cur).tf.esp).trans_lt hheld.esp
  have hdata : StackReached (s.kernel.proc cur).sz (pgRoundDown (s.kernel.proc cur).tf.esp) →
      ((m.setPage f (.kernel (m.page f).byte)).page (v2p (pgRoundDown (uint32 stack)))).isData :=
    fun hr => (hkeeps _ (Page.isFree_of_isData (hstack hr).1) fun h => h).isData.trans (hstack hr).1
  simp only [threadSpace, ends_bind]
  refine (linkuvm_spec L horig h32 (hm.dirs _ hheld.dir).tree (fun _ hst n hn => ?_)
    (fun _ hr hlt => ?_) (fun _ => hm.free) fun _ d m1 m2 => hbad f m d m1 m2 hret).imp ?_
  · exact ⟨hn.trans_le (pagesIn_le.2 hheld.size), hheld.covered hst n hn⟩
  · exact movable_page hm hheld.dir horig hlt (uint32_lt _) (hstack hr).2 (hdata hr)
  rintro (_ | d) m' ⟨hnone, hsome⟩
  · exact ⟨fun _ => hnone rfl trivial, by simp⟩
  obtain ⟨hm', hend⟩ := hsome d rfl
  simp only [ends_bind]
  refine loadWord_spec.imp ?_
  rintro eip _ rfl
  refine ⟨by simp, fun d' sz tf heq => ?_⟩
  simp only [Option.some.injEq, Prod.mk.injEq] at heq
  obtain ⟨rfl, rfl, rfl⟩ := heq
  refine hend.newSpace (hm' trivial) (hm.dirs _ hheld.dir) horig h32 hheld.size ?_ ?_ hdata
  swap
  · dsimp only
    exact uint32_lt _
  rcases argint_esp hheld.esp harg with hlt | heq
  · exact .inl ((pgRoundDown_le _).trans_lt hlt)
  · exact .inr heq

/-! ## `userinit` -/

/-- **The first process.** Its page is mapped only if there is memory for a page table. -/
theorem userinit_ok :
    Ends (userinit L) s
      (fun _ s' => ∃ p, s'.kernel.initproc = some p ∧
        ((strict → (s'.mem.pte (s'.kernel.proc p).pgdir 0).p) → s'.Ok strict))
          (Calm True strict) := by
  simp only [userinit, ends_bind]
  refine tableStep_ends fun k hk => ?_
  obtain ⟨p, -, hunused, rfl⟩ := Kernel.step_userinit h.wf hk
  set k := ((s.kernel.takeSlot p).setInit p).ready p with hk'
  have hinit : k.initproc = some p := by simp [hk', Kernel.ready]
  simp only [ends_get, Machine.setKernel_kernel, Machine.setKernel_mem, hinit,
    ends_bind, ends_onMem]
  refine kalloc_ends (.inl h.mem.free) (calm_fault _ _ ((s.setKernel k).setMem s.mem.asked))
    fun f fs hl hf => ?_
  simp only [ends_bind, ends_onMem, ends_modify, Machine.setMem_mem]
  set m1 := (s.mem.asked.grant f).setPage f (.kernel ((s.mem.asked.grant f).page f).byte)
  have hsp1 : ∀ d f, s.mem.Spares m1 d f := h.mem.take hl hf
  refine (setupkvm_spec L fun _ => (hsp1 0 0).ok.free).imp ?_
  rintro (_ | d) m2 ⟨-, hsome⟩
  · exact calm_panic (s.setMem m2) fun _ _ => by decide
  obtain ⟨hfresh, hfree⟩ := hsome d rfl
  simp only [ends_bind, ends_onMem, ends_modify]
  refine (inituvm_spec L (.of_fresh hfresh (hfree trivial))).imp ?_
  rintro _ m' ⟨hfill, -⟩
  refine ⟨p, hinit, fun hpage => ?_⟩
  have hself : ((k.modify p fun x => withSpace d PGSIZE { esp := PGSIZE } (withStack f x)).proc
      p).space = ⟨d, f, PGSIZE, { esp := PGSIZE }, (k.proc p).firstPid, true⟩ := by
    simp [hk', Kernel.ready, Proc.space, ProcState.used]
  refine h.add ?_ (Kernel.Wf.modify (Kernel.step_wf h.wf hk) p (fun _ => rfl) fun _ => rfl)
    (fun q hq => ?_) hself hf hsp1 (by simp [m1, Page.isKernel])
    ⟨hfill.toBuilding, hfill.free, fun n hn hp => (hfill.own n hn hp).2, by decide, by decide, ?_⟩
  · simp [Machine.Used, hunused, ProcState.used]
  · simp [hk', Kernel.ready, hq]
  · intro hst n hn
    obtain rfl : n = 0 := by
      rw [lt_pagesIn] at hn
      unfold PGSIZE at hn
      omega
    have := hpage hst
    simpa using this

/-! ## `exec` -/

omit h in
theorem Mem.Private.congr {m m' : Mem} {d lo hi : Nat} (h : m.Private d lo hi)
    (hd : (m.page d).isDir) (hdir : ∀ g, (m'.page g).isDir → (m.page g).isDir)
    (hpte : ∀ g, (m.page g).isDir → ∀ n, m'.pte g n = m.pte g n) : m'.Private d lo hi := by
  intro n hlo hhi hp d' k hd' hk hpk heq
  have hold := hdir d' hd'
  rw [hpte d hd] at hp heq
  rw [hpte d' hold] at hpk heq
  exact h n hlo hhi hp d' k hold hk hpk heq

omit h in
theorem Filled.private_old {L : Layout} {m m' : Mem} {d d0 : Frame} (h : Filled L d m m')
    (hm : m.Ok) (hd0 : (m.page d0).isDir) {lo hi : Nat} (hhi : hi ≤ UPAGES)
    (hpriv : m.Private d0 lo hi) : m'.Private d0 lo hi := by
  intro n hlo hn hp d' k hd' hk hpk heq
  have hold : ∀ g, (m.page g).isDir → ∀ n, m'.pte g n = m.pte g n := fun g hg =>
    h.toBuilding.old_pte (hm.dirs g hg).tree
  rw [hold d0 hd0] at hp heq
  rcases h.dirs d' hd' with rfl | hd'
  · -- the pages of the new directory were free
    have hfree := (h.own k hk hpk).1
    have hdata := (hm.dirs d0 hd0).user n (by omega) hp
    rw [heq] at hfree
    simp [Page.isFree_of_isData hdata] at hfree
  · rw [hold d' hd'] at hpk heq
    exact hpriv n hlo hn hp d' k hd' hk hpk heq

/-- **A process with a new address space**, whose old one was private and is gone. -/
theorem Machine.Ok.exec {L : Layout} (hu : s.Used cur) {d sz : Nat}
    {tf : TrapFrame} {m1 m2 : Mem} (himage : Image L (pagesIn sz) d s.mem m1)
    (hesp : tf.esp < 2 ^ 32) (hsp1 : ∀ f, s.mem.Spares m1 d f)
    (hsp2 : ∀ f, m1.Spares m2 (s.kernel.proc cur).pgdir f)
    (hgone : (m2.page (s.kernel.proc cur).pgdir).isDir = false) :
    Ok strict ⟨s.kernel.modify cur (withSpace d sz tf), m2⟩ := by
  set d0 := (s.kernel.proc cur).pgdir with hd0
  have hself : (s.kernel.modify cur (withSpace d sz tf)).proc cur =
      withSpace d sz tf (s.kernel.proc cur) := by simp
  have hfree : (s.mem.page d).isFree := himage.fresh d (.inl rfl)
  -- the new directory was free, so that it is no one's
  have hnew : ∀ q, s.Used q → (s.kernel.proc q).pgdir ≠ d := by
    rintro q hq rfl
    simp [Page.isFree_of_isDir (h.held q hq).dir] at hfree
  have hother : ∀ q, q ≠ cur → s.Used q → (s.kernel.proc q).pgdir ≠ d0 := fun q hq hqu heq =>
    hq (h.dirInj q cur hqu hu heq)
  have hne : ∀ g : Frame, g ≠ g + 1 := fun g => (Nat.succ_ne_self g).symm
  have hstack : ∀ q, s.Used q → (m2.page (s.kernel.proc q).kstack).isKernel := fun q hq =>
    (hsp2 _).kernel _ (hne _) ((hsp1 _).kernel _ (hne _) (h.held q hq).stack)
  refine h.replace cur (h.wf.modify cur (fun _ => rfl) fun _ => rfl) (hsp2 0).ok
    (fun q hq => by simp [hq]) (fun q hq hqu => ?_) (fun _ => ?_) fun g hg => ?_
  · have hq1 := ((hsp1 0).dir _ (hnew q hqu)).2 (h.held q hqu).dir
    exact ⟨((hsp2 0).dir _ (hother q hq hqu)).2 hq1, hstack q hqu, fun n =>
      ((hsp2 0).pte _ (hother q hq hqu) hq1 n).trans
        ((hsp1 0).pte _ (hnew q hqu) (h.held q hqu).dir n)⟩
  · have hd : d ≠ d0 := (hnew cur hu).symm
    rw [hself]
    refine ⟨⟨((hsp2 0).dir d hd).2 himage.tree.dir, hstack cur hu, pagesIn_le.1 himage.bound, hesp,
      fun _ n hn => ?_⟩, fun q hq hqu => ⟨hnew q hqu, fun heq => hq (h.stackInj q cur hqu hu heq)⟩⟩
    rw [withSpace_pgdir, (hsp2 0).pte d hd himage.tree.dir n]
    exact himage.below n hn
  · have hg0 : g ≠ d0 := by
      rintro rfl
      simp [hgone] at hg
    have hg1 := ((hsp2 0).dir g hg0).1 hg
    rw [hself]
    by_cases hgd : g = d
    · exact .inl ⟨hu, hgd.symm⟩
    · exact .inr ⟨((hsp1 0).dir g hgd).1 hg1, fun _ => hg0.symm⟩

theorem exec_ok {prog : Option Program} {args : List (List UInt8)}
    (hg : ∀ cur, s.kernel.cpu c = some cur → s.Private cur 0 UPAGES) :
    Ends (execve L c prog args) s (fun _ s' => s'.Ok strict) (Calm True strict) := by
  simp only [execve, ends_bind]
  refine caller_ends fun cur hcur _ => ?_
  have hu := h.used hcur
  have hheld := h.held cur hu
  simp only [ends_procOf, ends_onMem]
  refine (execImage_spec L h.mem.free prog args).imp ?_
  rintro (_ | ⟨d, sz, sp⟩) m1 ⟨hnone, hsome⟩
  · exact h.same h.wf (fun _ => rfl) fun d f => h.mem.restored (hnone rfl) d f
  obtain ⟨himage, hesp⟩ := hsome d sz sp rfl
  have hsp1 : ∀ f, s.mem.Spares m1 d f :=
    h.mem.building himage.toBuilding himage.free fun n hn hp => (himage.own n hn hp).2
  have hok := (hsp1 0).ok
  have hdir : (m1.page (s.kernel.proc cur).pgdir).isDir := himage.keeps.dir hheld.dir fun h => h
  have hpriv := himage.toFilled.private_old h.mem hheld.dir le_rfl (h.private (hg cur hcur))
  simp only [ends_bind, ends_modify, ends_onMem]
  refine (freevm_spec L hok.free (hok.dirs _ hdir).tree (hok.freeable hdir le_rfl hpriv)).mono
    (fun _ m2 htorn => ?_) fun _ _ h => h
  exact h.exec hu himage hesp hsp1 (fun f => (hok.torn hdir hpriv htorn f).1)
    (hok.torn hdir hpriv htorn 0).2

/-! ## Reaping -/

theorem Machine.Ok.remove {k' : Kernel} {z : Slot} (hz : s.Used z) {m' : Mem}
    (hwf : k'.Wf) (hred : Kernel.Reaped s.kernel k' (some z))
    (hsp : s.mem.Spares m' (s.kernel.proc z).pgdir (s.kernel.proc z).kstack)
    (hgone : (m'.page (s.kernel.proc z).pgdir).isDir = false) : Ok strict ⟨k', m'⟩ := by
  have hself : (k'.proc z).state.used = false := by
    rw [(hred.zombie z rfl).2]
    rfl
  refine h.replace z hwf hsp.ok (fun q hq => hred.other q fun heq => hq (Option.some.inj heq).symm)
    (h.spared hsp (fun q hq hqu heq => hq (h.dirInj q z hqu hz heq)) fun q hq hqu heq =>
      hq (h.stackInj q z hqu hz heq)) (fun hu => absurd hu (by simp [hself])) fun g hg => ?_
  have hne : g ≠ (s.kernel.proc z).pgdir := by
    rintro rfl
    simp [hgone] at hg
  exact .inr ⟨(hsp.dir g hne).1 hg, fun _ => hne.symm⟩

/-- **`diagwait` and `thread_join`.** A zombie is reaped whose pages, as far as they are freed, are
mapped nowhere else. -/
theorem reap_ok {e : Event} {z : Option Slot} {release : Frame → Code Unit}
    {lo : Nat} (hred : ∀ k', s.kernel.step e = some k' → Kernel.Reaped s.kernel k' z)
    (hpriv : ∀ p, z = some p → s.Private p lo UPAGES)
    (hrelease : ∀ d m, m.FreeOk → m.Tree d → m.Freeable d lo UPAGES →
      Ends (release d) m (fun _ m' => ∃ i0, Torn d lo i0 m m') (Calm True strict)) :
    Ends (reap L e z release) s (fun _ s' => s'.Ok strict) (Calm True strict) := by
  rcases z with _ | z
  · refine tableStep_ends fun k' hk => ?_
    exact h.same (Kernel.step_wf h.wf hk) (fun q => (hred k' hk).other q (by simp))
      fun d f => h.mem.data (.refl _) d f
  simp only [reap, ends_bind, ends_procOf]
  refine tableStep_ends fun k' hk => ?_
  have hred := hred k' hk
  have hz : s.Used z := by
    rw [Machine.Used, (hred.zombie z rfl).1]
    rfl
  have hheld := h.held z hz
  have hpriv := h.private (hpriv z rfl)
  simp only [ends_onMem]
  refine kfree_ends_of_phys L fun hphys => ?_
  have hsp1 := h.mem.release hheld.stack hphys
  have hne : ∀ g : Frame, g ≠ g + 1 := fun g => (Nat.succ_ne_self g).symm
  have hok := (hsp1 0).ok
  have hdir := ((hsp1 _).dir _ (hne _)).2 hheld.dir
  have hpriv1 : (s.mem.release (s.kernel.proc z).kstack).Private
      (s.kernel.proc z).pgdir lo UPAGES :=
    hpriv.congr hheld.dir (fun g hg => ((hsp1 _).dir g (hne g)).1 hg) fun g hg =>
      (hsp1 _).pte g (hne g) hg
  refine (hrelease _ _ hok.free (hok.dirs _ hdir).tree (hok.freeable hdir le_rfl hpriv1)).mono
    ?_ fun _ _ h => h
  rintro _ m2 ⟨i0, htorn⟩
  obtain ⟨hsp2, hgone⟩ := hok.torn hdir hpriv1 htorn (s.kernel.proc z).kstack
  exact h.remove hz (Kernel.step_wf h.wf hk) hred ((hsp1 _).trans hsp2) hgone

theorem diagwait_ok
    (hg : ∀ cur z, s.kernel.cpu c = some cur → waitReaps s.kernel cur = some z →
      s.Private z 0 UPAGES) :
    Ends (diagwait L c) s (fun _ s' => s'.Ok strict) (Calm True strict) := by
  simp only [diagwait, ends_bind]
  refine myproc_ends fun cur hcur => ?_
  simp only [ends_get]
  exact reap_ok L h (fun k' hk => Kernel.diagwait_reaped h.wf hcur hk)
      (fun z hz => hg cur z hcur hz)
    fun d m hm ht hf => (freevm_spec L hm ht hf).imp (fun _ _ h => ⟨0, h⟩)

theorem threadJoin_ok {tid : Int}
    (hg : ∀ cur z, s.kernel.cpu c = some cur → joinReaps s.kernel cur tid = some z →
      s.Private z (firstPage (uint32 ((pgRoundDown (s.kernel.proc cur).tf.esp : Int) - PGSIZE)))
        UPAGES) :
    Ends (threadJoin L c tid) s (fun _ s' => s'.Ok strict) (Calm True strict) := by
  simp only [threadJoin, ends_bind]
  refine myproc_ends fun cur hcur => ?_
  simp only [ends_get, ends_onlyIf]
  refine ⟨fun _ => ?_, fun _ => h⟩
  exact reap_ok L h (fun k' hk => Kernel.threadJoin_reaped h.wf hcur hk)
    (fun z hz => hg cur z hcur hz)
    fun d m hm ht hf => (freethread_spec L rfl hm ht hf).imp (fun _ _ h => ⟨_, h⟩)

end

end

end Xv6.Memory
