import Xv6.Memory.Calls
import Xv6.Memory.Tables
import Xv6.Processes.Invariant

/-! # Rules for system calls

How to execute the code of a system call symbolically: the rules for the code over the process table
and the memory, and **`create_ends`**, the weakest precondition of the part that `fork` and
`thread_create` share. -/

namespace Xv6.Memory

open Foundation

variable {L : Layout} {safe strict : Prop} {s : Machine} {c : Nat}

/-! ## The parts of system calls -/

theorem ends_onMem {α : Type} {m : Code α} {Q : α → Machine → Prop} :
    Ends (onMem m) s Q (Calm safe strict) ↔
      Ends m s.mem (fun a m' => Q a (s.setMem m')) (Calm safe strict) := by
  unfold onMem
  exact ends_zoom

theorem tableStep_ends {e : Event} {Q : Unit → Machine → Prop}
    (h : ∀ k, s.kernel.step e = some k → Q () (s.setKernel k)) :
    Ends (tableStep e) s Q (Calm safe strict) := by
  simp only [tableStep, ends_bind, ends_get]
  split
  · exact calm_disabled _ _ s
  · exact h _ ‹_›

theorem myproc_ends {Q : Slot → Machine → Prop}
    (h : ∀ cur, s.kernel.cpu c = some cur → Q cur s) : Ends (myproc c) s Q (Calm safe strict) := by
  simp only [myproc, ends_bind, ends_get]
  split
  · exact calm_disabled _ _ s
  · exact h _ ‹_›

theorem caller_ends {Q : Slot → Machine → Prop}
    (h : ∀ cur, s.kernel.cpu c = some cur → s.kernel.ctl cur = .user → Q cur s) :
    Ends (caller c) s Q (Calm safe strict) := by
  simp only [caller, ends_bind]
  refine myproc_ends fun cur hcur => ?_
  simp only [ends_get, ends_stopIf, ends_pure]
  exact ⟨fun _ => calm_disabled _ _ s, fun hctl => h cur hcur (not_not.1 hctl)⟩

@[simp] theorem ends_procOf {p : Slot} {Q : Proc → Machine → Prop} {C : Stop → Machine → Prop} :
    Ends (procOf p) s Q C ↔ Q (s.kernel.proc p) s := by
  simp only [procOf, ends_bind, ends_get, ends_pure]

theorem returns_onMem {α : Type} {m : Code α} {s' : Machine} {a : α} :
    Returns (onMem m) s a s' ↔ ∃ m', Returns m s.mem a m' ∧ s' = s.setMem m' := by
  unfold onMem
  exact returns_zoom

theorem caller_returns {s' : Machine} {cur : Slot} (h : Returns (caller c) s cur s') :
    s.kernel.cpu c = some cur ∧ s' = s := by
  have hends : Ends (caller c) s (fun cur s' => s.kernel.cpu c = some cur ∧ s' = s)
      (Calm False False) := caller_ends fun cur hcur _ => ⟨hcur, rfl⟩
  exact hends.of_returns h

theorem returns_procOf {s' : Machine} {p : Slot} {x : Proc} :
    Returns (procOf p) s x s' ↔ x = s.kernel.proc p ∧ s' = s := by
  simp only [procOf, returns_bind, returns_get, returns_pure]
  constructor
  · rintro ⟨_, _, ⟨rfl, rfl⟩, rfl, rfl⟩
    exact ⟨rfl, rfl⟩
  · rintro ⟨rfl, rfl⟩
    exact ⟨_, _, ⟨rfl, rfl⟩, rfl, rfl⟩

theorem kalloc_returns {m m' : Mem} {f : Frame} (h : Returns kalloc m (some f) m') :
    (m.page f).isFree ∧ m' = m.asked.grant f ∧ ∃ fs, m.freelist = f :: fs := by
  have hends : Ends kalloc m (fun r m' => ∀ f, r = some f →
      (m.page f).isFree ∧ m' = m.asked.grant f ∧ ∃ fs, m.freelist = f :: fs) fun _ _ => True :=
    kalloc_ends (.inr fun _ => trivial) (by simp) fun f fs hl hf g hg => by
      cases hg
      exact ⟨hf, rfl, fs, hl⟩
  exact hends.of_returns h f rfl

/-! ## The table while a process is created -/

namespace Created

/-- The process table after `allocproc` has taken the slot `np`. -/
def begun (k : Kernel) (cur np : Slot) (thread : Bool) : Kernel :=
  ((k.takeSlot np).setCtl np .user).setCtl cur (.creating np thread)

/-- The process table after the creation was given up. -/
def givenUp (k : Kernel) (cur np : Slot) : Kernel :=
  (k.modify np (·.abandoned)).setCtl cur .user

/-- The process table after the new process was made runnable. -/
def launched (k : Kernel) (cur np : Slot) (thread : Bool) : Kernel :=
  (((k.adopt cur np thread).setCtl cur (.publishing np)).ready np).setCtl cur .user

end Created

open Created

section

variable {k k' : Kernel} {cur np : Slot} {thread : Bool} (hcur : k.cpu c = some cur)
include hcur

theorem step_allocproc (hctl : k.ctl cur = .user)
    (h : k.step (.call c (.allocproc thread)) = some k') :
    k' = k ∨ ∃ np, (k.proc np).state = .unused ∧ k' = begun k cur np thread := by
  simp only [Kernel.step, hcur, Kernel.op, hctl, if_true] at h
  split at h
  · cases h
  · split at h
    · exact .inl (Option.some.inj h).symm
    · rename_i np k1 halloc
      obtain ⟨hnp, rfl⟩ := Kernel.allocproc_some halloc
      exact .inr ⟨np, hnp, (Option.some.inj h).symm⟩

theorem step_abandon (hctl : k.ctl cur = .creating np thread)
    (h : k.step (.call c .abandon) = some k') : k' = givenUp k cur np := by
  simp only [Kernel.step, hcur, Kernel.op, hctl, Op.locks, Bool.false_and, Bool.false_eq_true,
    if_false] at h
  exact (Option.some.inj h).symm

theorem step_adopt (hctl : k.ctl cur = .creating np thread)
    (h : k.step (.call c .adopt) = some k') :
    k' = (k.adopt cur np thread).setCtl cur (.publishing np) := by
  simp only [Kernel.step, hcur, Kernel.op, hctl, Op.locks, Bool.false_and, Bool.false_eq_true,
    if_false] at h
  exact (Option.some.inj h).symm

theorem step_publish (np : Slot) (hctl : k.ctl cur = .publishing np)
    (h : k.step (.call c .publish) = some k') : k' = (k.ready np).setCtl cur .user := by
  simp only [Kernel.step, hcur, Kernel.op, hctl] at h
  split at h
  · cases h
  · exact (Option.some.inj h).symm

end

/-- **The rule for `fork` and `thread_create`**: there is no slot; or `np` is one, and then there is
no memory for the kernel stack, or none for the address space, or the new process is launched. -/
theorem create_ends {thread : Bool} {build : Proc → Code (Option (Frame × Nat × TrapFrame))}
    {Q : Unit → Machine → Prop} (hnone : Q () s)
    (hslot : ∀ cur np, s.kernel.cpu c = some cur → s.kernel.ctl cur = .user →
      (s.kernel.proc np).state = .unused →
      Ends kalloc s.mem (fun r m => match r with
        | none => Q () ⟨givenUp (begun s.kernel cur np thread) cur np, m⟩
        | some f =>
          let k := (begun s.kernel cur np thread).modify np (withStack f)
          Ends (build (k.proc cur)) (m.setPage f (.kernel (m.page f).byte)) (fun r m => match r with
            | none => Ends (kfree L f) m (fun _ m => Q () ⟨givenUp k cur np, m⟩) (Calm safe strict)
            | some (d, sz, tf) =>
              Q () ⟨launched (k.modify np (withSpace d sz tf)) cur np thread, m⟩)
                (Calm safe strict))
        (Calm safe strict)) :
    Ends (create L c thread build) s Q (Calm safe strict) := by
  simp only [create, ends_bind]
  refine caller_ends fun cur hcur hctl => tableStep_ends fun k hk => ?_
  simp only [ends_get]
  rcases step_allocproc hcur hctl hk with rfl | ⟨np, hnp, rfl⟩
  · simp only [Machine.setKernel_kernel, hctl, ends_pure]
    exact hnone
  have hcreating : (begun s.kernel cur np thread).ctl cur = .creating np thread := by
    simp [begun]
  have hcpu : (begun s.kernel cur np thread).cpu c = some cur := by
    simp [begun, hcur]
  simp only [Machine.setKernel_kernel, hcreating, ends_bind, ends_onMem]
  refine (hslot cur np hcur hctl hnp).imp ?_
  rintro (_ | f) m h
  · refine tableStep_ends fun k hk => ?_
    rw [step_abandon hcpu hcreating hk]
    exact h
  simp only [ends_bind, ends_onMem, ends_modify, ends_procOf]
  refine h.imp ?_
  rintro (_ | ⟨d, sz, tf⟩) m h
  · simp only [ends_bind, ends_onMem]
    refine h.imp (fun _ m h => tableStep_ends fun k hk => ?_)
    rw [step_abandon (by simpa using hcpu) (by simpa using hcreating) hk]
    exact h
  · simp only [ends_bind, ends_modify]
    refine tableStep_ends fun k hk => tableStep_ends fun k' hk' => ?_
    obtain rfl := step_adopt (by simpa using hcpu) (by simpa using hcreating) hk
    rw [step_publish (by simpa [Kernel.adopt] using hcpu) np (by simp) hk']
    exact h

end Xv6.Memory
