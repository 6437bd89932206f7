import Xv6.Processes.Invariant

/-! # The family of processes

An abstract view of the process table: who is alive, under which pid and group, and whose child.
`Forest.Step` says how `fork`, `thread_create`, `exit` and the two calls that reap change the
family, and `Kernel.step_forest` that every step of the kernel is a step of the forest. As long as
pids do not run out, the family stays a forest rooted at `init` (`Forest.Step.ok`). -/

namespace Xv6

open Foundation

/-- What a slot holds, as far as its relatives can tell. -/
inductive Phase
  | free
  | embryo
  | live
  | zombie
  deriving DecidableEq, Repr

/-- The phase of a process state. -/
@[simp] def ProcState.phase : ProcState → Phase
  | .unused => .free
  | .embryo => .embryo
  | .sleeping | .runnable | .running => .live
  | .zombie => .zombie

theorem live_iff_phase {s : ProcState} : s.live ↔ s.phase = .live := by
  cases s <;> simp [ProcState.live]

theorem zombie_iff_phase {s : ProcState} : s = .zombie ↔ s.phase = .zombie := by
  cases s <;> simp

/-- What the family knows of one process. -/
@[ext] structure Kin where
  phase : Phase
  pid : Int
  firstPid : Int
  parent : Option Slot
  deriving DecidableEq

namespace Kin

/-- A process in another phase. -/
@[simps] def withPhase (x : Kin) (s : Phase) : Kin :=
  { x with phase := s }

/-- A slot taken under a new pid. -/
@[simps] def named (x : Kin) (s : Phase) (pid : Int) : Kin :=
  { x with phase := s, pid := pid }

/-- A process placed in a group and under a parent. -/
@[simps] def adopted (x : Kin) (firstPid : Int) (parent : Slot) : Kin :=
  { x with firstPid := firstPid, parent := some parent }

/-- A process handed to another parent. -/
@[simps] def handedTo (x : Kin) (parent : Slot) : Kin :=
  { x with parent := some parent }

/-- A slot that has been reaped. -/
@[simps] def cleared : Kin :=
  ⟨.free, 0, 0, none⟩

end Kin

/-- The family's view of a process record. -/
@[simps] def Proc.kin (x : Proc) : Kin :=
  ⟨x.state.phase, x.pid, x.firstPid, x.parent⟩

/-- The process that a creator is creating, and whether it has a parent yet. -/
@[simp] def Ctl.birth : Ctl → Option (Slot × Bool)
  | .creating np _ => some (np, false)
  | .publishing np => some (np, true)
  | .user | .diagwait | .threadJoin _ | .sleep | .ticketRead _ _ | .ticketWritten _ => none

theorem Ctl.birth_eq_none {x : Ctl} (h : x = .user ∨ x.waits) : x.birth = none := by
  rcases h with rfl | h
  · rfl
  · cases x <;> simp_all

/-- The family of all processes. -/
@[ext] structure Forest where
  kin : Slot → Kin
  birth : Slot → Option (Slot × Bool)
  init : Option Slot
  nextpid : Int

/-- The family in a kernel. -/
@[simps] def Kernel.forest (k : Kernel) : Forest where
  kin := fun q => (k.proc q).kin
  birth := fun q => (k.ctl q).birth
  init := k.initproc
  nextpid := k.nextpid

namespace Forest

/-- Change what the family knows of `p`. -/
@[simps] def setKin (f : Forest) (p : Slot) (x : Kin) : Forest :=
  { f with kin := fun q => if q = p then x else f.kin q }

/-- Change what `p` is creating. -/
@[simps] def setBirth (f : Forest) (p : Slot) (x : Option (Slot × Bool)) : Forest :=
  { f with birth := fun q => if q = p then x else f.birth q }

/-- Use up a pid. -/
@[simps] def takePid (f : Forest) : Forest :=
  { f with nextpid := int32 (f.nextpid + 1) }

/-- Count pids from another number on. -/
@[simps] def withNext (f : Forest) (n : Int) : Forest :=
  { f with nextpid := n }

/-- Name the root. -/
@[simps] def setRoot (f : Forest) (p : Slot) : Forest :=
  { f with init := some p }

/-- The family after the exit of `cur`: its children belong to `init`. -/
def afterExit (f : Forest) (cur init : Slot) : Forest :=
  { f with
    kin := fun q =>
      if q = cur then (f.kin q).withPhase .zombie
      else if (f.kin q).pid ≠ 0 ∧ (f.kin q).parent = some cur then (f.kin q).handedTo init
      else f.kin q }

/-- **How the family changes.** An exit is labelled with the process that exits. -/
inductive Step (f : Forest) : Option Slot → Forest → Prop
  | stay : Step f none f
  | boot (p : Slot) (hinit : f.init = none) :
      Step f none (((f.setKin p ((f.kin p).named .live f.nextpid)).setRoot p).takePid)
  | create (cur np : Slot) (hcur : (f.kin cur).phase = .live) (hnp : (f.kin np).phase = .free) :
      Step f none (((f.setKin np ((f.kin np).named .embryo f.nextpid)).setBirth cur
        (some (np, false))).takePid)
  | abandon (cur np : Slot) (hb : f.birth cur = some (np, false)) :
      Step f none ((f.setKin np ((f.kin np).withPhase .free)).setBirth cur none)
  | adopt (cur np : Slot) (firstPid : Int) (hb : f.birth cur = some (np, false)) :
      Step f none ((f.setKin np ((f.kin np).adopted firstPid cur)).setBirth cur (some (np, true)))
  | publish (cur np : Slot) (hb : f.birth cur = some (np, true)) :
      Step f none ((f.setKin np ((f.kin np).withPhase .live)).setBirth cur none)
  | exit (cur init : Slot) (hinit : f.init = some init) (hne : cur ≠ init)
      (hcur : (f.kin cur).phase = .live) (hb : f.birth cur = none) :
      Step f (some cur) (f.afterExit cur init)
  | reap (z : Slot) (hz : (f.kin z).phase = .zombie) : Step f none (f.setKin z Kin.cleared)

/-- **A forest rooted at `init`**: children are younger than their parents, who are alive. -/
structure Ok (f : Forest) : Prop where
  next : 1 ≤ f.nextpid
  fresh : f.init = none → f.nextpid = 1 ∧ ∀ q, (f.kin q).phase = .free
  pid : ∀ q, (f.kin q).phase ≠ .free → 1 ≤ (f.kin q).pid ∧ (f.kin q).pid < f.nextpid
  parent : ∀ q r, (f.kin q).parent = some r → (f.kin q).phase ≠ .free ∧
    (f.kin r).phase = .live ∧ (f.kin r).pid < (f.kin q).pid
  born : ∀ r np b, f.birth r = some (np, b) → (f.kin np).phase = .embryo ∧
    (f.kin r).phase = .live ∧ (f.kin r).pid < (f.kin np).pid ∧
    ((f.kin np).parent = none ↔ b = false)
  once : ∀ r r' np b b', f.birth r = some (np, b) → f.birth r' = some (np, b') → r = r'
  root : ∀ i, f.init = some i → (f.kin i).phase = .live ∧ (f.kin i).pid = 1
  parented : ∀ q, (f.kin q).phase = .live ∨ (f.kin q).phase = .zombie → f.init ≠ some q →
    (f.kin q).parent ≠ none

section

variable {f f' : Forest} {cur np : Slot}

/-- The forest stays one when only `np`, which was not alive, and what `cur` creates change. -/
theorem Ok.change (hok : f.Ok) (cur np : Slot) (hkin : ∀ q ≠ np, f'.kin q = f.kin q)
    (hbirth : ∀ q ≠ cur, f'.birth q = f.birth q) (hinit : f'.init = f.init)
    (hnext : f.nextpid ≤ f'.nextpid) (hnp : (f.kin np).phase ≠ .live)
    (hcur : (f.kin cur).phase = .live)
    (hpid : (f'.kin np).phase ≠ .free → 1 ≤ (f'.kin np).pid ∧ (f'.kin np).pid < f'.nextpid)
    (hparent : ∀ r, (f'.kin np).parent = some r → (f'.kin np).phase ≠ .free ∧
      (f.kin r).phase = .live ∧ (f.kin r).pid < (f'.kin np).pid)
    (hborn : ∀ m b, f'.birth cur = some (m, b) →
      (m ≠ np ∧ f.birth cur = some (m, b)) ∨
      (m = np ∧ (f'.kin np).phase = .embryo ∧ (f.kin cur).pid < (f'.kin np).pid ∧
        ((f'.kin np).parent = none ↔ b = false)))
    (hother : ∀ r ≠ cur, ∀ b, f.birth r ≠ some (np, b))
    (hparented : (f'.kin np).phase = .live ∨ (f'.kin np).phase = .zombie →
      (f'.kin np).parent ≠ none) : f'.Ok := by
  have hlive : ∀ r, (f.kin r).phase = .live → f'.kin r = f.kin r := by
    intro r hr
    refine hkin r ?_
    rintro rfl
    exact hnp hr
  -- what is created was created before, or is `np`
  have hold : ∀ r m b, f'.birth r = some (m, b) →
      m ≠ np ∧ f.birth r = some (m, b) ∨ r = cur ∧ m = np := by
    intro r m b hr
    by_cases hrc : r = cur
    · subst hrc
      exact (hborn m b hr).imp_right fun h => ⟨rfl, h.1⟩
    · rw [hbirth r hrc] at hr
      refine .inl ⟨?_, hr⟩
      rintro rfl
      exact hother r hrc b hr
  constructor
  · exact hok.next.trans hnext
  · intro hnone
    rw [hinit] at hnone
    rw [(hok.fresh hnone).2 cur] at hcur
    cases hcur
  · intro q hq
    by_cases hqn : q = np
    · rw [hqn] at hq ⊢
      exact hpid hq
    · rw [hkin q hqn] at hq ⊢
      have := hok.pid q hq
      omega
  · intro q r hr
    by_cases hqn : q = np
    · rw [hqn] at hr ⊢
      obtain ⟨h1, h2, h3⟩ := hparent r hr
      rw [hlive r h2]
      exact ⟨h1, h2, h3⟩
    · rw [hkin q hqn] at hr ⊢
      have hqr := hok.parent q r hr
      rw [hlive r hqr.2.1]
      exact hqr
  · intro r m b hr
    rcases hold r m b hr with ⟨hm, h⟩ | ⟨rfl, rfl⟩
    · have hrm := hok.born r m b h
      rw [hkin m hm, hlive r hrm.2.1]
      exact hrm
    · rcases hborn m b hr with ⟨hm, -⟩ | ⟨-, h1, h2, h3⟩
      · exact absurd rfl hm
      · rw [hlive r hcur]
        exact ⟨h1, hcur, h2, h3⟩
  · intro r r' m b b' hr hr'
    rcases hold r m b hr with ⟨hm, h⟩ | ⟨hrc, hm⟩ <;>
      rcases hold r' m b' hr' with ⟨hm', h'⟩ | ⟨hrc', hm'⟩
    · exact hok.once r r' m b b' h h'
    · exact absurd hm' hm
    · exact absurd hm hm'
    · rw [hrc, hrc']
  · intro i hi
    rw [hinit] at hi
    have hroot := hok.root i hi
    rw [hlive i hroot.1]
    exact hroot
  · intro q hq hqi
    rw [hinit] at hqi
    by_cases hqn : q = np
    · rw [hqn] at hq ⊢
      exact hparented hq
    · rw [hkin q hqn] at hq ⊢
      exact hok.parented q hq hqi

@[simp] theorem afterExit_pid (f : Forest) (cur init q : Slot) :
    ((f.afterExit cur init).kin q).pid = (f.kin q).pid := by
  unfold afterExit
  dsimp only
  split
  · rfl
  · split <;> rfl

@[simp] theorem afterExit_firstPid (f : Forest) (cur init q : Slot) :
    ((f.afterExit cur init).kin q).firstPid = (f.kin q).firstPid := by
  unfold afterExit
  dsimp only
  split
  · rfl
  · split <;> rfl

@[simp] theorem afterExit_phase (f : Forest) (cur init q : Slot) :
    ((f.afterExit cur init).kin q).phase = if q = cur then .zombie else (f.kin q).phase := by
  unfold afterExit
  dsimp only
  split
  · rfl
  · split <;> rfl

theorem Ok.afterExit_parent (hok : f.Ok) (init q : Slot) :
    ((f.afterExit cur init).kin q).parent
      = if (f.kin q).parent = some cur then some init else (f.kin q).parent := by
  unfold Forest.afterExit
  dsimp only
  by_cases hpar : (f.kin q).parent = some cur
  · obtain ⟨hfree, -, hlt⟩ := hok.parent q cur hpar
    have hqc : q ≠ cur := by rintro rfl; omega
    have hpid := (hok.pid q hfree).1
    rw [if_neg hqc, if_pos ⟨by omega, hpar⟩, if_pos hpar, Kin.handedTo_parent]
  · rw [if_neg hpar, if_neg (c := _ ∧ _) fun h => hpar h.2]
    split <;> rfl

theorem Ok.afterExit (hok : f.Ok) {init : Slot} (hinit : f.init = some init) (hne : cur ≠ init)
    (hcur : (f.kin cur).phase = .live) (hb : f.birth cur = none) : (f.afterExit cur init).Ok := by
  obtain ⟨hroot, hone⟩ := hok.root init hinit
  have hcurpid := hok.pid cur (by simp [hcur])
  constructor
  · exact hok.next
  · intro hnone
    rw [show (f.afterExit cur init).init = f.init from rfl, hinit] at hnone
    cases hnone
  · intro q hq
    rw [afterExit_pid]
    refine hok.pid q fun hfree => ?_
    rw [afterExit_phase] at hq
    split at hq
    · rename_i hqc
      rw [hqc, hcur] at hfree
      cases hfree
    · exact hq hfree
  · intro q r hr
    rw [hok.afterExit_parent] at hr
    simp only [afterExit_pid, afterExit_phase]
    split at hr
    · -- a child of `cur`, handed to `init`, who is older than everybody
      rename_i hpar
      cases hr
      obtain ⟨hfree, -, hlt⟩ := hok.parent q cur hpar
      rw [if_neg hne.symm]
      refine ⟨?_, hroot, by omega⟩
      split
      · simp
      · exact hfree
    · rename_i hpar
      obtain ⟨hfree, hlive, hlt⟩ := hok.parent q r hr
      have hrc : r ≠ cur := by rintro rfl; exact hpar hr
      rw [if_neg hrc]
      refine ⟨?_, hlive, hlt⟩
      split
      · simp
      · exact hfree
  · intro r np b hr
    have hborn := hok.born r np b hr
    have hrc : r ≠ cur := by
      rintro rfl
      rw [show (f.afterExit r init).birth = f.birth from rfl, hb] at hr
      cases hr
    have hnc : np ≠ cur := by rintro rfl; rw [hcur] at hborn; exact absurd hborn.1 (by simp)
    simp only [afterExit_pid, afterExit_phase, if_neg hrc, if_neg hnc, hok.afterExit_parent]
    refine ⟨hborn.1, hborn.2.1, hborn.2.2.1, ?_⟩
    split
    · rename_i hpar
      simpa [hpar] using hborn.2.2.2
    · exact hborn.2.2.2
  · exact hok.once
  · intro i hi
    obtain rfl : init = i := Option.some.inj (hinit.symm.trans hi)
    simp [hne.symm, hroot, hone]
  · intro q hq hqi
    rw [hok.afterExit_parent]
    split
    · simp
    · refine hok.parented q ?_ hqi
      rw [afterExit_phase] at hq
      split at hq
      · rename_i hqc
        rw [hqc]
        exact .inl hcur
      · exact hq

theorem int32_succ_ne (n : Int) : int32 (n + 1) ≠ n := by
  intro h
  have hmod := int32_modEq (n + 1)
  rw [h, Int.ModEq] at hmod
  omega

variable {l : Option Slot}

theorem Step.nextpid (h : f.Step l f') :
    f'.nextpid = f.nextpid ∨ f'.nextpid = int32 (f.nextpid + 1) := by
  cases h with
  | boot | create => exact .inr rfl
  | _ => exact .inl rfl

/-- **Every change of the family keeps it a forest** if pids are counted without wrapping. -/
theorem Step.ok_next (h : f.Step l f') (hok : f.Ok) {n : Int}
    (hn : if f'.nextpid = f.nextpid then n = f.nextpid else n = f.nextpid + 1) :
    (f'.withNext n).Ok := by
  cases h with
  | stay =>
    obtain rfl : n = f.nextpid := by simpa using hn
    exact hok
  | boot p hinit =>
    obtain ⟨hone, hfree⟩ := hok.fresh hinit
    obtain rfl : n = f.nextpid + 1 := by simpa [int32_succ_ne] using hn
    have hpar : ∀ q, (f.kin q).parent = none := by
      intro q
      cases h : (f.kin q).parent with
      | none => rfl
      | some r => exact absurd (hfree q) (hok.parent q r h).1
    have hbirth : ∀ r m b, f.birth r ≠ some (m, b) := by
      intro r m b h
      have := (hok.born r m b h).1
      simp [hfree] at this
    constructor
    · simp only [withNext_nextpid]
      omega
    · simp
    · intro q hq
      by_cases hqp : q = p
      · simp only [withNext_kin, takePid_kin, setRoot_kin, setKin_kin, if_pos hqp, Kin.named_pid,
          withNext_nextpid]
        omega
      · simp [hqp, hfree] at hq
    · intro q r hr
      by_cases hqp : q = p <;> simp [hqp, hpar] at hr
    · exact fun r m b hr => absurd hr (hbirth r m b)
    · exact fun r _ m b _ hr => absurd hr (hbirth r m b)
    · intro i hi
      obtain rfl : p = i := by simpa using hi
      simp [hone]
    · intro q hq hqi
      have hqp : q ≠ p := by rintro rfl; exact hqi rfl
      simp [hqp, hfree] at hq
  | create cur np hcur hnp =>
    obtain rfl : n = f.nextpid + 1 := by simpa [int32_succ_ne] using hn
    refine hok.change cur np (fun q hq => by simp [hq])
      (fun q hq => by simp [hq]) rfl (by simp) (by simp [hnp]) hcur ?_ ?_ ?_ ?_ ?_
    · have := hok.next
      simp [this]
    · intro r hr
      have := (hok.parent np r (by simpa using hr)).1
      exact absurd hnp this
    · intro m b hmb
      obtain ⟨rfl, rfl⟩ : np = m ∧ false = b := by simpa using hmb
      refine .inr ⟨rfl, by simp, ?_, ?_⟩
      · simpa using (hok.pid cur (by simp [hcur])).2
      · cases hpar : (f.kin np).parent with
        | none => simp [hpar]
        | some r => exact absurd hnp (hok.parent np r hpar).1
    · intro r _ b hr
      rw [(hok.born r np b hr).1] at hnp
      cases hnp
    · simp
  | abandon cur np hb =>
    obtain rfl : n = f.nextpid := by simpa using hn
    obtain ⟨hnp, hcur, -, hpar⟩ := hok.born cur np false hb
    refine hok.change cur np (fun q hq => by simp [hq])
      (fun q hq => by simp [hq]) rfl le_rfl (by simp [hnp]) hcur (by simp) ?_ (by simp) ?_
      (by simp)
    · intro r hr
      simp [hpar.2 rfl] at hr
    · intro r hr b h
      exact hr (hok.once r cur np b false h hb)
  | adopt cur np firstPid hb =>
    obtain rfl : n = f.nextpid := by simpa using hn
    obtain ⟨hnp, hcur, hlt, -⟩ := hok.born cur np false hb
    refine hok.change cur np (fun q hq => by simp [hq])
      (fun q hq => by simp [hq]) rfl le_rfl (by simp [hnp]) hcur ?_ ?_ ?_ ?_ ?_
    · intro _
      simpa using hok.pid np (by simp [hnp])
    · intro r hr
      obtain rfl : cur = r := by simpa using hr
      simp [hnp, hcur, hlt]
    · intro m b hmb
      obtain ⟨rfl, rfl⟩ : np = m ∧ true = b := by simpa using hmb
      exact .inr (by simp [hnp, hlt])
    · intro r hr b h
      exact hr (hok.once r cur np b false h hb)
    · simp
  | publish cur np hb =>
    obtain rfl : n = f.nextpid := by simpa using hn
    obtain ⟨hnp, hcur, hlt, hpar⟩ := hok.born cur np true hb
    refine hok.change cur np (fun q hq => by simp [hq])
      (fun q hq => by simp [hq]) rfl le_rfl (by simp [hnp]) hcur ?_ ?_ (by simp) ?_ ?_
    · intro _
      simpa using hok.pid np (by simp [hnp])
    · intro r hr
      have := hok.parent np r (by simpa using hr)
      simp [this]
    · intro r hr b h
      exact hr (hok.once r cur np b true h hb)
    · simpa using hpar
  | exit cur init hinit hne hcur hb =>
    obtain rfl : n = f.nextpid := by simpa [afterExit] using hn
    exact hok.afterExit hinit hne hcur hb
  | reap z hz =>
    obtain rfl : n = f.nextpid := by simpa using hn
    cases hinit : f.init with
    | none =>
      rw [(hok.fresh hinit).2 z] at hz
      cases hz
    | some i =>
      refine hok.change i z (fun q hq => by simp [hq]) (fun q _ => rfl) rfl
        le_rfl (by simp [hz]) (hok.root i hinit).1 (by simp) (by simp) ?_ ?_ (by simp)
      · intro m b hmb
        refine .inl ⟨?_, hmb⟩
        rintro rfl
        rw [(hok.born i m b hmb).1] at hz
        cases hz
      · intro r _ b h
        rw [(hok.born r z b h).1] at hz
        cases hz

/-- **Every change of the family keeps it a forest**, as long as pids do not run out. -/
theorem Step.ok (h : f.Step l f') (hok : f.Ok)
    (hpids : f'.nextpid = f.nextpid ∨ f.nextpid < 2 ^ 31 - 1) : f'.Ok := by
  refine h.ok_next hok (n := f'.nextpid) ?_
  split
  · assumption
  · rename_i hne
    have hlt := hpids.resolve_left hne
    have hpos := hok.next
    rw [h.nextpid.resolve_left hne]
    exact int32_eq (by omega) (by omega)

end

end Forest

namespace Kernel

/-! ## The kernel steps in the forest -/

section

variable {k k' : Kernel} {c : Nat} {cur : Slot} {o : Op}

theorem step_of_forest {f : Forest} {l : Option Slot} (h : k.forest.Step l f)
    (hkin : ∀ q, (k'.proc q).kin = f.kin q) (hbirth : ∀ q, (k'.ctl q).birth = f.birth q)
    (hinit : k'.initproc = f.init) (hnext : k'.nextpid = f.nextpid) :
      k.forest.Step l k'.forest := by
  have heq : k'.forest = f := Forest.ext (funext hkin) (funext hbirth) hinit hnext
  rwa [heq]

theorem forest_modify (k : Kernel) (p : Slot) (f : Proc → Proc)
    (hf : (f (k.proc p)).kin = (k.proc p).kin) :
    (k.modify p f).forest = k.forest := by
  refine Forest.ext (funext fun q => ?_) rfl rfl rfl
  by_cases hq : q = p
  · subst hq
    simpa using hf
  · simp [hq]

theorem forest_setCtl (k : Kernel) (p : Slot) (x : Ctl) (hx : x.birth = (k.ctl p).birth) :
    (k.setCtl p x).forest = k.forest := by
  refine Forest.ext rfl (funext fun q => ?_) rfl rfl
  by_cases hq : q = p
  · rw [forest_birth, forest_birth, hq, setCtl_ctl, if_pos rfl, hx]
  · simp [hq]

theorem step_stay (h : k'.forest = k.forest) : k.forest.Step none k'.forest := by
  rw [h]
  exact .stay

theorem orphaned_kin (k : Kernel) {cur q : Slot} {init : Slot} (hq : q ≠ cur) :
    (k.orphaned cur init q).kin = (k.forest.afterExit cur init).kin q := by
  have hphase : (k.orphaned cur init q).state.phase = (k.proc q).state.phase := by
    obtain ⟨hr, hs⟩ | ⟨-, hs⟩ := k.orphaned_state cur init q
    · simp [hs, hr.1]
    · rw [hs]
  simp only [Forest.afterExit, if_neg hq]
  obtain ⟨hc, hp⟩ | ⟨hc, hp⟩ := k.orphaned_parent cur init q
  · rw [if_pos ⟨hc.1, hc.2.2⟩]
    exact Kin.ext hphase (orphaned_pid k cur init q) (orphaned_firstPid k cur init q) hp
  · rw [if_neg fun h => hc ⟨h.1, hq, h.2⟩]
    exact Kin.ext hphase (orphaned_pid k cur init q) (orphaned_firstPid k cur init q) hp

theorem forest_sleep {ch : Chan} {x : Ctl} (hrun : (k.proc cur).state = .running)
    (hctl : (k.ctl cur).birth = none) (hx : x.birth = none) :
    ((k.sleep c cur ch).setCtl cur x).forest = k.forest :=
  calc
    _ = (k.sleep c cur ch).forest := forest_setCtl _ cur x (hx.trans hctl.symm)
    _ = (k.modify cur (·.asleep ch)).forest := forest_modify _ cur (·.charged k.ticks) rfl
    _ = k.forest := forest_modify k cur _ (by simp [Proc.kin, hrun])

theorem step_of_change {p q : Slot} {f : Proc → Proc} {x : Ctl}
    (h : k.forest.Step none ((k.forest.setKin p (f (k.proc p)).kin).setBirth q x.birth)) :
    k.forest.Step none ((k.modify p f).setCtl q x).forest := by
  refine step_of_forest h (fun r => ?_) (fun r => ?_) rfl rfl
  · by_cases hr : r = p
    · subst hr
      simp
    · simp [hr]
  · by_cases hr : r = q <;> simp [hr]

/-- **A step of a running process is a step of the forest.** -/
theorem Effect.forest (hk : k.Wf) (hcur : k.cpu c = some cur) (h : k.Effect c cur o k') :
    k.forest.Step none k'.forest ∨
      (o = .exit ∧ k.forest.Step (some cur) k'.forest ∧ ∃ init, k.initproc = some init ∧
        k' = k.exit c cur init) := by
  have hrun := (hk.onCpu c cur hcur).1
  have hlive : (k.forest.kin cur).phase = .live := by simp [hrun]
  cases h with
  | idle => exact .inl .stay
  | alloc thread np hctl hnp =>
    left
    have huser := ((hk.fits np).user (by simp [hnp, ProcState.live])).1
    refine step_of_forest (.create cur np hlive (by simp [hnp])) (fun q => ?_) (fun q => ?_) rfl
      rfl
    · by_cases hq : q = np
      · subst hq
        simp [Proc.kin, Kin.named]
      · simp [hq]
    · by_cases hq : q = cur
      · simp [hq]
      · by_cases hqn : q = np
        · subst hqn
          simp [hq, huser]
        · simp [hq, hqn]
  | abandon hctl =>
    left
    exact step_of_change (.abandon cur _ (by simp [hctl]))
  | adopt hctl =>
    left
    exact step_of_change (.adopt cur _ _ (by simp [hctl]))
  | @publish np hctl =>
    left
    exact step_of_change (f := (·.readied k.ticks)) (.publish cur np (by simp [hctl]))
  | @exit init hinit hctl hne =>
    right
    obtain ⟨hg, hsame, -⟩ := k.exit_rest c cur init
    refine ⟨rfl, step_of_forest (.exit cur init hinit hne hlive (by simp [hctl])) (fun q => ?_)
      (fun q => by rw [hsame]; rfl) hg.initproc hg.nextpid, init, hinit, rfl⟩
    by_cases hq : q = cur
    · subst hq
      rw [exit_proc_self c init hrun]
      simp [Forest.afterExit, Proc.kin, Kin.withPhase]
    · rw [exit_proc_ne k c hq]
      exact k.orphaned_kin hq
  | @reap _ p hctl hne hp =>
    left
    have hawake : (k.modify cur (·.awake)).forest = k.forest := forest_modify k cur _ rfl
    rw [forest_setCtl _ cur .user (by exact (Ctl.birth_eq_none hctl).symm), ← hawake]
    refine step_of_forest (.reap p (by simp [hne, hp.1])) (fun q => ?_) (fun _ => rfl) rfl rfl
    by_cases hq : q = p
    · subst hq
      simp [Proc.kin, Kin.cleared]
    · simp [hq]
  | «return» _ hctl | loseLock _ hctl =>
    left
    exact step_stay ((forest_setCtl (k.modify cur (·.awake)) cur .user
      (Ctl.birth_eq_none hctl).symm).trans (forest_modify k cur _ rfl))
  | yield =>
    left
    have hstate : (k.modify cur (·.withState .runnable)).forest = k.forest :=
      forest_modify k cur _ (by simp [Proc.kin, hrun])
    exact step_stay ((forest_modify _ cur (·.charged k.ticks) rfl).trans hstate)
  | waitChild hctl | waitThread hctl =>
    exact .inl (step_stay (forest_sleep hrun (Ctl.birth_eq_none hctl) rfl))
  | waitObject addr hctl => exact .inl (step_stay (forest_sleep hrun (by simp [hctl]) rfl))
  | mark _ p => exact .inl (step_stay (forest_modify k p _ rfl))
  | @rouse _ p hp =>
    left
    have hready : ((k.modify p (·.marked)).ready p).forest = (k.modify p (·.marked)).forest :=
      forest_modify _ p (·.readied k.ticks) (by simp [Proc.kin, hp])
    exact step_stay (hready.trans (forest_modify k p _ rfl))
  | setTicketCount => exact .inl (step_stay (forest_modify _ cur _ rfl))
  | charge => exact .inl (step_stay (forest_modify k cur _ rfl))
  | ticketRead hctl | ticketStore hctl =>
    exact .inl (step_stay (forest_setCtl k cur _ (by simp [hctl])))
  | ticketCommit hctl =>
    exact .inl (step_stay ((forest_setCtl (k.modify cur _) cur _
      (by simp [hctl])).trans (forest_modify k cur _ rfl)))

/-- **Every step of the kernel is a step of the forest.** -/
theorem step_forest {e : Event} (hk : k.Wf) (h : k.step e = some k') :
    ∃ l, k.forest.Step l k'.forest ∧
      ∀ cur ∈ l, ∃ c, e = .call c .exit ∧ k.cpu c = some cur := by
  cases e with
  | userinit =>
    obtain ⟨p, hinit, hun, rfl⟩ := step_userinit hk h
    refine ⟨none, step_of_forest (.boot p hinit) (fun q => ?_) (fun q => rfl) rfl rfl, by simp⟩
    by_cases hq : q = p
    · subst hq
      simp [ready, Proc.kin, Kin.named]
    · simp [hq, ready]
  | tick =>
    cases h
    exact ⟨none, .stay, by simp⟩
  | wakeup addr =>
    rw [step_wakeup h]
    obtain ⟨hg, hctl, -⟩ := k.wakeup1_globals (.obj addr)
    refine ⟨none, step_of_forest .stay (fun q => ?_) (fun q => by rw [hctl]; rfl) hg.initproc
      hg.nextpid, by simp⟩
    rw [wakeup1_proc, forest_kin]
    split
    · rename_i hs
      simp [Proc.kin, hs.1]
    · rfl
  | dispatch c p =>
    obtain ⟨⟨-, -, hp⟩, rfl⟩ := step_dispatch h
    exact ⟨none, step_stay (forest_modify k p (·.dispatched k.ticks) (by simp [Proc.kin, hp])),
      by simp⟩
  | call c o =>
    obtain ⟨cur, hcur, heff⟩ := step_call hk h
    obtain hstep | ⟨rfl, hstep, -⟩ := heff.forest hk hcur
    · exact ⟨none, hstep, by simp⟩
    · exact ⟨some cur, hstep, fun p hp => ⟨c, rfl, by simpa using hp ▸ hcur⟩⟩

theorem step_forest_none {e : Event} (hk : k.Wf) (h : k.step e = some k')
    (he : ∀ c, e ≠ .call c .exit) : k.forest.Step none k'.forest := by
  obtain ⟨l, hstep, hl⟩ := step_forest hk h
  cases l with
  | none => exact hstep
  | some cur =>
    obtain ⟨c, rfl, -⟩ := hl cur rfl
    exact absurd rfl (he c)

end

/-! ## Runs in which pids do not run out -/

/-- The steps that use up a pid leave one. -/
def PidsLeft (k : Kernel) (e : Event) : Prop :=
  e.allocates → k.nextpid < 2 ^ 31 - 1

instance (k : Kernel) (e : Event) : Decidable (k.PidsLeft e) :=
  inferInstanceAs (Decidable (e.allocates → k.nextpid < 2 ^ 31 - 1))

theorem Effect.nextpid {k k' : Kernel} {c : Nat} {cur : Slot} {o : Op} (h : k.Effect c cur o k') :
    k'.nextpid = k.nextpid ∨ (Event.call c o).allocates := by
  cases h with
  | alloc => exact .inr rfl
  | @exit init => exact .inl (k.exit_rest c cur init).1.nextpid
  | _ => exact .inl rfl

theorem step_nextpid {k k' : Kernel} {e : Event} (hk : k.Wf) (h : k.step e = some k') :
    k'.nextpid = k.nextpid ∨ e.allocates := by
  cases e with
  | userinit => exact .inr rfl
  | tick =>
    cases h
    exact .inl rfl
  | wakeup addr =>
    rw [step_wakeup h]
    exact .inl (k.wakeup1_globals _).1.nextpid
  | dispatch c p =>
    obtain ⟨-, rfl⟩ := step_dispatch h
    exact .inl rfl
  | call c o =>
    obtain ⟨cur, -, heff⟩ := step_call hk h
    exact heff.nextpid

/-- **Every step keeps the family a forest**, as long as pids do not run out. -/
theorem step_forest_ok {k k' : Kernel} {e : Event} (hk : k.Wf) (hok : k.forest.Ok)
    (hg : k.PidsLeft e) (h : k.step e = some k') : k'.forest.Ok := by
  obtain ⟨l, hstep, -⟩ := step_forest hk h
  exact hstep.ok hok ((step_nextpid hk h).imp_right hg)

theorem boot_forest_ok (ncpu : Nat) : (boot ncpu).forest.Ok := by
  constructor <;> simp [boot]

end Kernel

end Xv6
