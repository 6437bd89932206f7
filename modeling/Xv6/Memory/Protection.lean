import Xv6.Memory.Owners
import Xv6.Memory.Ownership

/-! # Page ownership

Every process has a page directory and a kernel stack of its own, and what user code can reach is
ordinary memory: `Machine.Ok`. The invariant is kept by every system call that does not free a page
which is mapped somewhere else; it implies that no page on the free list is mapped in a live
process.

The parameter `strict` adds a second invariant: every page below the size of a process is mapped.
It needs a stronger guard, and excludes the panics of code that relies on it.

* **`sbrk_ok`**, **`getpage_ok`**, **`detachpage_ok`** — under their guards these calls keep the
  invariant, and do not stop because of a page that is used as two things at once. -/

namespace Xv6.Memory

open Foundation Created

variable (L : Layout)

/-! ## The invariant -/

/-- What a process has is in order. -/
structure Held (strict : Prop) (m : Mem) (x : Proc) : Prop where
  dir : (m.page x.pgdir).isDir
  stack : (m.page x.kstack).isKernel
  size : x.sz ≤ KERNBASE
  esp : x.tf.esp < 2 ^ 32
  covered : strict → ∀ n < pagesIn x.sz, (m.pte x.pgdir n).p

namespace Machine

/-- The process in slot `p` has an address space. -/
def Used (s : Machine) (p : Slot) : Prop := (s.kernel.proc p).state.used = true

/-- **The invariant of the machine.** -/
structure Ok (strict : Prop) (s : Machine) : Prop where
  wf : s.kernel.Wf
  mem : s.mem.Ok
  held : ∀ p, s.Used p → Held strict s.mem (s.kernel.proc p)
  dirInj : ∀ p q, s.Used p → s.Used q → (s.kernel.proc p).pgdir = (s.kernel.proc q).pgdir → p = q
  stackInj : ∀ p q, s.Used p → s.Used q → (s.kernel.proc p).kstack = (s.kernel.proc q).kstack →
    p = q
  owned : ∀ d, (s.mem.page d).isDir → ∃ p, s.Used p ∧ (s.kernel.proc p).pgdir = d

/-- What the process `p` maps in the range is mapped nowhere else, in its own address space or in
another one. -/
def Private (s : Machine) (p : Slot) (lo hi : Nat) : Prop :=
  ∀ n, lo ≤ n → n < hi → (s.mem.pte (s.kernel.proc p).pgdir n).p →
    ∀ q k, s.Used q → k < UPAGES → (s.mem.pte (s.kernel.proc q).pgdir k).p →
      (s.mem.pte (s.kernel.proc q).pgdir k).ppn = (s.mem.pte (s.kernel.proc p).pgdir n).ppn →
      q = p ∧ k = n

section

variable {strict : Prop} {s : Machine} {k' : Kernel} {m' : Mem}

theorem Ok.private (h : s.Ok strict) {p : Slot} {lo hi : Nat} (hpriv : s.Private p lo hi) :
    s.mem.Private (s.kernel.proc p).pgdir lo hi := by
  intro n hlo hhi hp d' k hd' hk hpk heq
  obtain ⟨q, hq, rfl⟩ := h.owned d' hd'
  obtain ⟨rfl, hkn⟩ := hpriv n hlo hhi hp q k hq hk hpk heq
  exact ⟨rfl, hkn⟩

theorem Held.congr {m : Mem} {x y : Proc} (h : Held strict m x) (hspace : y.space = x.space)
    (hdir : (m'.page x.pgdir).isDir) (hstack : (m'.page x.kstack).isKernel)
    (hpte : ∀ n, m'.pte x.pgdir n = m.pte x.pgdir n) : Held strict m' y := by
  simp only [Proc.space, Space.mk.injEq] at hspace
  obtain ⟨h1, h2, h3, h4, -, -⟩ := hspace
  refine ⟨h1 ▸ hdir, h2 ▸ hstack, h3 ▸ h.size, h4 ▸ h.esp, fun hst n hn => ?_⟩
  rw [h1, hpte]
  exact h.covered hst n (h3 ▸ hn)

/-- **What one process does with its own memory** keeps the invariant, if the others are left
alone. -/
theorem Ok.replace (h : s.Ok strict) (p : Slot) (hwf : k'.Wf) (hm : m'.Ok)
    (hspace : ∀ q ≠ p, (k'.proc q).space = (s.kernel.proc q).space)
    (hother : ∀ q ≠ p, s.Used q → (m'.page (s.kernel.proc q).pgdir).isDir ∧
      (m'.page (s.kernel.proc q).kstack).isKernel ∧
      ∀ n, m'.pte (s.kernel.proc q).pgdir n = s.mem.pte (s.kernel.proc q).pgdir n)
    (hself : (k'.proc p).state.used → Held strict m' (k'.proc p) ∧
      ∀ q ≠ p, s.Used q → (s.kernel.proc q).pgdir ≠ (k'.proc p).pgdir ∧
        (s.kernel.proc q).kstack ≠ (k'.proc p).kstack)
    (hdirs : ∀ g, (m'.page g).isDir → ((k'.proc p).state.used ∧ (k'.proc p).pgdir = g) ∨
      ((s.mem.page g).isDir ∧ (s.Used p → (s.kernel.proc p).pgdir ≠ g))) :
    Ok strict ⟨k', m'⟩ := by
  have hparts : ∀ q ≠ p, (k'.proc q).pgdir = (s.kernel.proc q).pgdir ∧
      (k'.proc q).kstack = (s.kernel.proc q).kstack ∧
      (k'.proc q).state.used = (s.kernel.proc q).state.used := by
    intro q hq
    have := hspace q hq
    simp only [Proc.space, Space.mk.injEq] at this
    exact ⟨this.1, this.2.1, this.2.2.2.2.2⟩
  have hused : ∀ q ≠ p, (k'.proc q).state.used = true → s.Used q := fun q hq hu => by
    rwa [Used, ← (hparts q hq).2.2]
  refine ⟨hwf, hm, fun q hu => ?_, fun q r hq hr heq => ?_, fun q r hq hr heq => ?_, fun g hg => ?_⟩
  · by_cases hq : q = p
    · exact hq ▸ (hself (hq ▸ hu)).1
    · have hu := hused q hq hu
      obtain ⟨hd, hst, hpte⟩ := hother q hq hu
      exact Held.congr (h.held q hu) (hspace q hq) hd hst hpte
  · by_cases hqp : q = p <;> by_cases hrp : r = p
    · rw [hqp, hrp]
    · subst hqp
      have := ((hself hq).2 r hrp (hused r hrp hr)).1
      rw [← (hparts r hrp).1] at this
      exact absurd heq.symm this
    · subst hrp
      have := ((hself hr).2 q hqp (hused q hqp hq)).1
      rw [← (hparts q hqp).1] at this
      exact absurd heq this
    · rw [(hparts q hqp).1, (hparts r hrp).1] at heq
      exact h.dirInj q r (hused q hqp hq) (hused r hrp hr) heq
  · by_cases hqp : q = p <;> by_cases hrp : r = p
    · rw [hqp, hrp]
    · subst hqp
      have := ((hself hq).2 r hrp (hused r hrp hr)).2
      rw [← (hparts r hrp).2.1] at this
      exact absurd heq.symm this
    · subst hrp
      have := ((hself hr).2 q hqp (hused q hqp hq)).2
      rw [← (hparts q hqp).2.1] at this
      exact absurd heq this
    · rw [(hparts q hqp).2.1, (hparts r hrp).2.1] at heq
      exact h.stackInj q r (hused q hqp hq) (hused r hrp hr) heq
  · rcases hdirs g hg with ⟨hu, rfl⟩ | ⟨hold, hne⟩
    · exact ⟨p, hu, rfl⟩
    · obtain ⟨q, hq, rfl⟩ := h.owned g hold
      have hqp : q ≠ p := by
        rintro rfl
        exact hne hq rfl
      exact ⟨q, by rw [Used, (hparts q hqp).2.2]; exact hq, (hparts q hqp).1⟩

theorem Ok.used (h : s.Ok strict) {c : Nat} {cur : Slot} (hcur : s.kernel.cpu c = some cur) :
    s.Used cur := by
  rw [Used, (h.wf.onCpu c cur hcur).1]
  rfl

/-- What spares everything but the directory and the stack of `p` spares the other processes. -/
theorem Ok.spared (h : s.Ok strict) {p : Slot} {d f : Frame} (hsp : s.mem.Spares m' d f)
    (hd : ∀ q ≠ p, s.Used q → (s.kernel.proc q).pgdir ≠ d)
    (hf : ∀ q ≠ p, s.Used q → (s.kernel.proc q).kstack ≠ f) (q : Slot) (hq : q ≠ p)
    (hu : s.Used q) : (m'.page (s.kernel.proc q).pgdir).isDir ∧
      (m'.page (s.kernel.proc q).kstack).isKernel ∧
      ∀ n, m'.pte (s.kernel.proc q).pgdir n = s.mem.pte (s.kernel.proc q).pgdir n := by
  have hheld := h.held q hu
  exact ⟨(hsp.dir _ (hd q hq hu)).2 hheld.dir, hsp.kernel _ (hf q hq hu) hheld.stack,
    hsp.pte _ (hd q hq hu) hheld.dir⟩

/-- **A step that concerns the memory of no process.** -/
theorem Ok.same (h : s.Ok strict) (hwf : k'.Wf)
    (hspace : ∀ q, (k'.proc q).space = (s.kernel.proc q).space)
    (hsp : ∀ d f, s.mem.Spares m' d f) : Ok strict ⟨k', m'⟩ := by
  have hne : ∀ g : Frame, g ≠ g + 1 := fun g => (Nat.succ_ne_self g).symm
  have hall : ∀ q, s.Used q → (m'.page (s.kernel.proc q).pgdir).isDir ∧
      (m'.page (s.kernel.proc q).kstack).isKernel ∧
      ∀ n, m'.pte (s.kernel.proc q).pgdir n = s.mem.pte (s.kernel.proc q).pgdir n := fun q hu => by
    have hheld := h.held q hu
    exact ⟨((hsp _ 0).dir _ (hne _)).2 hheld.dir, (hsp 0 _).kernel _ (hne _) hheld.stack,
      (hsp _ 0).pte _ (hne _) hheld.dir⟩
  have hfields := fun q => Space.mk.injEq .. ▸ hspace q
  have hused : ∀ q, (k'.proc q).state.used = true → s.Used q := fun q hu => by
    rwa [Used, ← (hfields q).2.2.2.2.2]
  refine ⟨hwf, (hsp 0 0).ok, fun q hu => ?_, fun q r hq hr heq => ?_, fun q r hq hr heq => ?_,
    fun g hg => ?_⟩
  · obtain ⟨hd, hst, hpte⟩ := hall q (hused q hu)
    exact Held.congr (h.held q (hused q hu)) (hspace q) hd hst hpte
  · rw [(hfields q).1, (hfields r).1] at heq
    exact h.dirInj q r (hused q hq) (hused r hr) heq
  · rw [(hfields q).2.1, (hfields r).2.1] at heq
    exact h.stackInj q r (hused q hq) (hused r hr) heq
  · obtain ⟨q, hq, rfl⟩ := h.owned g (((hsp _ 0).dir g (hne g)).1 hg)
    exact ⟨q, by rw [Used, (hfields q).2.2.2.2.2]; exact hq, (hfields q).1⟩

theorem Ok.update (h : s.Ok strict) {p : Slot} (hu : s.Used p) {g : Proc → Proc}
    (hstate : ∀ x, (g x).state = x.state) (hchan : ∀ x, (g x).chan = x.chan)
    (hpgdir : ∀ x, (g x).pgdir = x.pgdir) (hkstack : ∀ x, (g x).kstack = x.kstack)
    (hsp : ∀ f, s.mem.Spares m' (s.kernel.proc p).pgdir f)
    (hdir : (m'.page (s.kernel.proc p).pgdir).isDir)
    (hsize : (g (s.kernel.proc p)).sz ≤ KERNBASE)
    (hesp : (g (s.kernel.proc p)).tf.esp < 2 ^ 32)
    (hcov : strict → ∀ n < pagesIn (g (s.kernel.proc p)).sz,
      (m'.pte (s.kernel.proc p).pgdir n).p) :
    Ok strict ⟨s.kernel.modify p g, m'⟩ := by
  have hself : (s.kernel.modify p g).proc p = g (s.kernel.proc p) := by simp
  have hheld := h.held p hu
  have hother := fun q (hq : q ≠ p) (hqu : s.Used q) =>
    (⟨fun heq => hq (h.dirInj q p hqu hu heq), fun heq => hq (h.stackInj q p hqu hu heq)⟩ :
      (s.kernel.proc q).pgdir ≠ (s.kernel.proc p).pgdir ∧
        (s.kernel.proc q).kstack ≠ (s.kernel.proc p).kstack)
  refine h.replace p (h.wf.modify p hstate hchan) (hsp 0).ok (fun q hq => by simp [hq])
    (h.spared (hsp _) (fun q hq hqu => (hother q hq hqu).1) fun q hq hqu => (hother q hq hqu).2)
    (fun _ => ?_) fun d hd => ?_
  · rw [hself]
    refine ⟨⟨by rwa [hpgdir], ?_, hsize, hesp, by rwa [hpgdir]⟩, ?_⟩
    · rw [hkstack]
      exact (hsp _).kernel _ (Nat.succ_ne_self _).symm hheld.stack
    · rw [hpgdir, hkstack]
      exact hother
  · rw [hself, hstate, hpgdir]
    by_cases heq : (s.kernel.proc p).pgdir = d
    · exact .inl ⟨hu, heq⟩
    · exact .inr ⟨((hsp 0).dir d fun h => heq h.symm).1 hd, fun _ => heq⟩

end

/-! ## What the calls may do

A call frees pages that the caller has mapped, or that a process had which is reaped. It must not do
so with a page that is mapped anywhere else. -/

section

variable (strict : Prop) (s : Machine)

/-- `sbrk(n)` frees no page that is mapped elsewhere. -/
def SbrkGuard (cur : Slot) (n : Int) : Prop :=
  let sz := (s.kernel.proc cur).sz
  let newsz := uint32 (sz + int32 n)
  (0 < int32 n → newsz < KERNBASE → s.Private cur (pgRoundUp sz / PGSIZE) (pagesIn newsz) ∧
    (strict → ∀ i, pgRoundUp sz / PGSIZE ≤ i → i < pagesIn newsz →
      (s.mem.pte (s.kernel.proc cur).pgdir i).p = false)) ∧
  (int32 n < 0 → s.Private cur (pgRoundUp newsz / PGSIZE) (pagesIn sz) ∧ (strict → newsz ≠ 0))

/-- The page after the last one of the process is not mapped. -/
def GetpageGuard (cur : Slot) : Prop :=
  strict → (s.mem.pte (s.kernel.proc cur).pgdir (pgRoundUp (s.kernel.proc cur).sz / PGSIZE)).p =
    false

/-- `detachpage` unmaps pages above the size of the process, which have an entry. -/
def DetachGuard (cur : Slot) (loc : Nat) : Prop :=
  strict → ∀ n, Touches (uint32 loc) n → pagesIn (s.kernel.proc cur).sz ≤ n ∧
    (s.mem.pte (s.kernel.proc cur).pgdir n).ppn ≠ 0

end

end Machine

/-! ## Calls that leave the table of address spaces as it is -/

section

variable {strict : Prop} {s : Machine} {c : Nat}

open Machine (Used SbrkGuard GetpageGuard DetachGuard)

section

variable (h : s.Ok strict)

include h

theorem table_ok {e : Event} (he : plain e) :
    Ends (tableStep e) s (fun _ s' => s'.Ok strict) (Calm True strict) :=
  tableStep_ends fun _ hk => h.same (Kernel.step_wf h.wf hk) (Kernel.plain_space h.wf he hk)
    fun d f => h.mem.data (.refl _) d f

variable {m' : Mem} {cur : Slot}

theorem Machine.Ok.setMem_data (hd : DataOnly s.mem m') :
    (s.setMem m').Ok strict :=
  h.same h.wf (fun _ => rfl) fun d f => h.mem.data hd d f

theorem Machine.Ok.start (refuse : List Bool) : (s.start refuse).Ok strict :=
  h.setMem_data ⟨fun _ => .refl _, rfl⟩

theorem setEsp_ok (esp : Nat) :
    Ends (Action.code L (.setEsp c esp)) s (fun _ s' => s'.Ok strict) (Calm True strict) := by
  simp only [Action.code, ends_bind]
  refine caller_ends fun cur hcur _ => ?_
  have hheld := h.held cur (h.used hcur)
  exact h.update (h.used hcur) (g := withEsp (uint32 esp)) (fun _ => rfl) (fun _ => rfl)
    (fun _ => rfl) (fun _ => rfl) (fun f => h.mem.data (.refl _) _ f) hheld.dir hheld.size
    (uint32_lt esp) hheld.covered

theorem store_ok (va : Nat) (b : UInt8) :
    Ends (userStore c va b) s (fun _ s' => s'.Ok strict) (Calm True strict) := by
  simp only [userStore, ends_bind]
  refine caller_ends fun cur hcur _ => ?_
  have hheld := h.held cur (h.used hcur)
  simp only [ends_procOf, ends_get, ends_stopIf, ends_onMem]
  refine ⟨fun _ => calm_disabled _ _ s, fun hok => ?_⟩
  rw [not_or, not_not] at hok
  have hdata := (h.mem.dirs _ hheld.dir).user _ (by omega) hok.2.1
  exact (pokeByte_spec fun _ => hdata).imp (fun _ _ hd => h.setMem_data hd)

/-- The store of the new size in `growproc`, or none, over a memory in which the pages below the
size are mapped. -/
theorem storeSize_ok (hu : s.Used cur) {r : Nat}
    (hsp : ∀ f, s.mem.Spares m' (s.kernel.proc cur).pgdir f)
    (hdir : (m'.page (s.kernel.proc cur).pgdir).isDir) (hr : r ≤ KERNBASE)
    (hcov : strict → ∀ i < pagesIn (if r = 0 then (s.kernel.proc cur).sz else r),
      (m'.pte (s.kernel.proc cur).pgdir i).p) :
    Ends (onlyIf (r ≠ 0) (modify (·.modify cur (withSize r)))) (s.setMem m')
      (fun _ s' => s'.Ok strict) (Calm True strict) := by
  have hheld := h.held cur hu
  rw [ends_onlyIf]
  refine ⟨fun hr' => ?_, fun hr' => ?_⟩
  · rw [if_neg hr'] at hcov
    exact h.update hu (g := withSize r) (fun _ => rfl) (fun _ => rfl) (fun _ => rfl)
      (fun _ => rfl) hsp hdir hr hheld.esp hcov
  · rw [if_pos (not_not.1 hr')] at hcov
    have := h.update hu (g := id) (fun _ => rfl) (fun _ => rfl) (fun _ => rfl)
      (fun _ => rfl) hsp hdir hheld.size hheld.esp hcov
    rwa [Kernel.modify_id] at this

omit h in
theorem Mem.Ok.grown {m : Mem} {d lo k : Nat} (h : m.Ok) (hd : (m.page d).isDir)
    (hg : Grown d lo k m m') (hf : m'.FreeOk) (f : Frame) : m.Spares m' d f := by
  refine h.works hd hg.works hf (fun n hn hp => ?_) f
  by_cases hin : lo ≤ n ∧ n < k
  · obtain ⟨f, heq, -, hdata⟩ := hg.new n hin.1 hin.2
    rwa [heq]
  · rw [hg.old n hin] at hp ⊢
    exact hg.works.old_data (h.dirs d hd).tree ((h.dirs d hd).user n hn hp)

omit h in
theorem Held.covered_of_outside {m : Mem} {x : Proc} (h : Held strict m x) {lo hi : Nat}
    (hout : ∀ n, ¬ (lo ≤ n ∧ n < hi) → m'.pte x.pgdir n = m.pte x.pgdir n) (hst : strict) {i : Nat}
    (hi' : i < pagesIn x.sz) (hlo : i < lo) : (m'.pte x.pgdir i).p := by
  rw [hout i (by omega)]
  exact h.covered hst i hi'

theorem growproc_ok (hu : s.Used cur) {n : Int} (hg : s.SbrkGuard strict cur n) :
    Ends (growproc L cur (int32 n)) s (fun _ s' => s'.Ok strict) (Calm True strict) := by
  have hheld := h.held cur hu
  have hdir := h.mem.dirs _ hheld.dir
  have hlo := pgRoundUp_div hheld.size
  obtain ⟨hgrow, hshrink⟩ := hg
  simp only [growproc, ends_bind, ends_procOf]
  split
  · rename_i hn
    simp only [ends_bind, ends_onMem]
    refine (allocuvm_spec L h.mem.free hdir.tree (fun _ hlt => ?_) (fun _ hlt n hlo hhi =>
      calm_panic_or fun _ hst => ?_) fun _ _ => L.gives_calm).imp ?_
    · exact h.mem.freeable hheld.dir (pagesIn_le.2 hlt.le) (h.private (hgrow hn hlt).1)
    · exact (hgrow hn hlt).2 hst n hlo hhi
    intro r m' hend
    cases hend with
    | grown hlt _ hm hgrown =>
      refine storeSize_ok h hu (h.mem.grown hheld.dir hgrown.toGrown hm) hgrown.works.tree.dir
        hlt.le fun hst i hi => ?_
      by_cases hold : i < pagesIn (s.kernel.proc cur).sz
      · exact hheld.covered_of_outside hgrown.old hst hold (hlo ▸ hold)
      · split at hi
        · exact absurd hi hold
        · obtain ⟨f, heq, -⟩ := hgrown.new i (by omega) (lt_max_of_lt_right hi)
          rw [heq]
    | emptied hlt _ hemp _ =>
      refine storeSize_ok h hu (h.mem.emptied hheld.dir (pagesIn_le.2 hlt.le)
        (h.private (hgrow hn hlt).1) hemp) hemp.tree.dir (Nat.zero_le _) fun hst i hi => ?_
      rw [if_pos rfl] at hi
      exact hheld.covered_of_outside hemp.outside hst hi (hlo ▸ hi)
    | large =>
      exact storeSize_ok h hu (h.mem.data (.refl _) _) hheld.dir (Nat.zero_le _)
        fun hst i hi => hheld.covered hst i (by rwa [if_pos rfl] at hi)
    | smaller hlt =>
      refine storeSize_ok h hu (h.mem.data (.refl _) _) hheld.dir hheld.size
        fun hst i hi => hheld.covered hst i ?_
      rwa [ite_self] at hi
  · split
    · rename_i hn
      obtain ⟨hpriv, hne⟩ := hshrink hn
      have hhi := pagesIn_le.2 hheld.size
      simp only [ends_bind, ends_onMem]
      refine (deallocuvm_spec L _ _ h.mem.free hdir.tree (fun _ => ?_) fun _ _ _ =>
        L.gives_calm).imp ?_
      · exact h.mem.freeable hheld.dir hhi (h.private hpriv)
      rintro r m' ⟨hge, hlt⟩
      rcases Nat.lt_or_ge (uint32 ((s.kernel.proc cur).sz + int32 n)) (s.kernel.proc cur).sz
        with hcmp | hcmp
      · obtain ⟨rfl, hde⟩ := hlt hcmp
        have hemp := hde.emptied hdir.tree
        refine storeSize_ok h hu (h.mem.emptied hheld.dir hhi (h.private hpriv) hemp)
          hemp.tree.dir (hcmp.le.trans hheld.size) fun hst i hi => ?_
        rw [if_neg (hne hst)] at hi
        have hnew := pgRoundUp_div (hcmp.le.trans hheld.size)
        have := pagesIn_mono hcmp.le
        exact hheld.covered_of_outside hemp.outside hst (by omega) (by omega)
      · obtain ⟨rfl, rfl⟩ := hge hcmp
        refine storeSize_ok h hu (h.mem.data (.refl _) _) hheld.dir hheld.size
          fun hst i hi => hheld.covered hst i ?_
        rwa [ite_self] at hi
    · exact h

theorem sbrk_ok {n : Int}
    (hg : ∀ cur, s.kernel.cpu c = some cur → s.SbrkGuard strict cur n) :
    Ends (sbrk L c n) s (fun _ s' => s'.Ok strict) (Calm True strict) := by
  simp only [sbrk, ends_bind]
  refine caller_ends fun cur hcur _ => ?_
  simp only [ends_procOf, ends_onlyIf]
  exact ⟨fun _ => growproc_ok L h (h.used hcur) (hg cur hcur), fun _ => h⟩

theorem storeEax_ok (hu : s.Used cur) (r : Nat)
    (hsp : ∀ f, s.mem.Spares m' (s.kernel.proc cur).pgdir f)
    (ht : m'.Tree (s.kernel.proc cur).pgdir)
    (hcov : strict → ∀ n < pagesIn (s.kernel.proc cur).sz, (m'.pte (s.kernel.proc cur).pgdir n).p) :
    ((s.setMem m').modify cur fun x => { x with tf := { x.tf with eax := r } }).Ok strict :=
  have hheld := h.held cur hu
  h.update hu (fun _ => rfl) (fun _ => rfl) (fun _ => rfl) (fun _ => rfl) hsp ht.dir hheld.size
    hheld.esp hcov

theorem getpage_ok
    (hg : ∀ cur, s.kernel.cpu c = some cur → s.GetpageGuard strict cur) :
    Ends (getpage c) s (fun _ s' => s'.Ok strict) (Calm True strict) := by
  simp only [getpage, ends_bind]
  refine caller_ends fun cur hcur _ => ?_
  have hu := h.used hcur
  have hheld := h.held cur hu
  have hdir := h.mem.dirs _ hheld.dir
  simp only [ends_procOf, ends_onMem, ends_modify]
  refine (palloc_spec h.mem.free hdir.tree (hg cur hcur)).imp ?_
  intro r m' hend
  cases hend with
  | refused =>
    have hd := DataOnly.asked s.mem
    exact storeEax_ok h hu _ (h.mem.data hd _) (hd.tree hdir.tree) fun hst n hn =>
      hd.pte _ n ▸ hheld.covered hst n hn
  | lost hw hm hpte =>
    refine storeEax_ok h hu _ (h.mem.works hheld.dir hw hm fun n hn hp => ?_) hw.tree
      fun hst n hn => ?_
    · rw [hpte] at hp ⊢
      exact hw.old_data hdir.tree (hdir.user n hn hp)
    · rw [hpte]
      exact hheld.covered hst n hn
  | mapped hw hm hf hd hpte htaken =>
    refine storeEax_ok h hu _ (h.mem.works hheld.dir hw hm fun n hn hp => ?_) hw.tree
      fun hst n hn => ?_
    · rw [hpte] at hp ⊢
      split
      · exact hd
      · rw [if_neg ‹_›] at hp
        exact hw.old_data hdir.tree (hdir.user n hn hp)
    · rw [hpte]
      split
      · rfl
      · exact hheld.covered hst n hn

theorem detachpage_ok {loc : Nat}
    (hg : ∀ cur, s.kernel.cpu c = some cur → s.DetachGuard strict cur loc) :
    Ends (detachpage c loc) s (fun _ s' => s'.Ok strict) (Calm True strict) := by
  simp only [detachpage, ends_bind]
  refine caller_ends fun cur hcur _ => ?_
  have hu := h.used hcur
  have hheld := h.held cur hu
  have hdir := h.mem.dirs _ hheld.dir
  rw [ends_procOf]
  split
  swap
  · exact storeEax_ok h hu _ (h.mem.data (.refl _) _) hdir.tree hheld.covered
  rw [ends_bind, ends_onMem]
  refine (unmappages_spec h.mem.free hdir.tree fun hst n hn =>
    (hg cur hcur hst n hn).2).imp (fun r m' hun => ?_)
  refine storeEax_ok h hu _ (h.mem.works hheld.dir hun.works hun.free fun n hn hp => ?_)
    hun.works.tree fun hst n hn => ?_
  · rcases hun.pte n with heq | ⟨-, heq⟩
    · rw [heq] at hp ⊢
      exact hun.works.old_data hdir.tree (hdir.user n hn hp)
    · simp [heq] at hp
  · rcases hun.pte n with heq | ⟨htouch, -⟩
    · rw [heq]
      exact hheld.covered hst n hn
    · exact absurd hn (Nat.not_lt.2 (hg cur hcur hst n htouch).1)

end

end

end Xv6.Memory
