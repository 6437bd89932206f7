import Xv6.Processes.Parents

/-! # Every exit is collected at most once

What `diagwait` and `thread_join` return, over whole runs: the pids that either call has reported so
far, and the pids of the processes that have called `exit`.

* **`collected_once`** — as long as no pid is used twice, no pid is reported a second time, by
  either call, or before the process exited; `diagwait` reports children to their parent, and
  `thread_join` threads to their group, with `-1` for those that were killed;
* **`pids_unique`** — under the same condition no two slots in use have the same pid. -/

namespace Xv6

open Foundation

namespace Kernel

/-- The value that a step of `diagwait` or `thread_join` by `cur` on CPU `c` returns, `none` if the
step returns nothing. -/
def returned (k : Kernel) (c : Nat) (cur : Slot) : Op → Option Int
  | .diagwait =>
    if k.ctl cur = .user then (k.diagwait c cur).1
    else if k.ctl cur = .diagwait then ((k.modify cur (·.awake)).diagwait c cur).1
    else none
  | .threadJoin tid =>
    if k.ctl cur = .user then
      if tid = (k.proc cur).pid then some (-2) else (k.threadJoin c cur tid).1
    else if k.ctl cur = .threadJoin tid then
      ((k.modify cur (·.awake)).threadJoin c cur tid).1
    else none
  | _ => none

/-- The pid that a step reports as exited: the one `diagwait` returns, or the target of a
`thread_join` that does not return `-2`. -/
def reports (k : Kernel) (c : Nat) (cur : Slot) (o : Op) : Option Int :=
  match o, k.returned c cur o with
  | .diagwait, some r => if r = -1 then none else some r
  | .threadJoin tid, some r => if r = -2 then none else some tid
  | _, _ => none

end Kernel

/-- A kernel, with the pids whose exit has been reported and those of the processes that have called
`exit`. -/
structure Collecting where
  kernel : Kernel
  reported : List Int
  exited : List Int

namespace Collecting

/-- The kernel at boot. -/
def start (ncpu : Nat) : Collecting := ⟨boot ncpu, [], []⟩

/-- The process that takes a step, and the step. -/
def actor (s : Collecting) : Event → Option (Nat × Slot × Op)
  | .call c o => (s.kernel.cpu c).map fun cur => (c, cur, o)
  | _ => none

/-- The pids that a step adds to those reported. -/
def newReports (s : Collecting) (e : Event) : List Int :=
  match s.actor e with
  | some (c, cur, o) => (s.kernel.reports c cur o).toList
  | none => []

/-- The pids that a step adds to those exited. -/
def newExits (s : Collecting) (e : Event) : List Int :=
  match s.actor e with
  | some (_, cur, .exit) => [(s.kernel.proc cur).pid]
  | _ => []

/-- **One step**: of the kernel, and of the record of what was reported. -/
def step (s : Collecting) (e : Event) : Option Collecting :=
  (s.kernel.step e).map fun k => ⟨k, s.newReports e ++ s.reported, s.newExits e ++ s.exited⟩

/-- The condition that no pid is used twice. -/
def PidsFresh (s : Collecting) (e : Event) : Prop := s.kernel.PidsFresh e

instance (s : Collecting) (e : Event) : Decidable (s.PidsFresh e) :=
  inferInstanceAs (Decidable (s.kernel.PidsFresh e))

/-- **A call of `cur` reports a process once**: a pid that is reported was not reported before, its
process has exited, and it is a child of the caller for `diagwait`, a thread of the caller's group
for `thread_join`, which returns `-1` exactly if it was killed and `0` otherwise. -/
structure Right (s : Collecting) (c : Nat) (cur : Slot) : Prop where
  wait : ∀ pid, s.kernel.returned c cur .diagwait = some pid → pid ≠ -1 →
    pid ∉ s.reported ∧ pid ∈ s.exited ∧
      ∃ p, (s.kernel.proc p).pid = pid ∧ (s.kernel.proc p).parent = some cur
  join : ∀ tid r, s.kernel.returned c cur (.threadJoin tid) = some r → r ≠ -2 →
    tid ∉ s.reported ∧ tid ∈ s.exited ∧
      ∃ p, (s.kernel.proc p).pid = tid ∧
        (s.kernel.proc p).firstPid = (s.kernel.proc cur).firstPid ∧
        r = if (s.kernel.proc p).killed then -1 else 0

end Collecting

/-! ## The family and the record -/

namespace Forest

/-- `x` is a pid that has been given out. -/
def Given (f : Forest) (x : Int) : Prop := f.nextpid ≤ 0 ∨ x < f.nextpid

/-- **The invariant**: the pids in use are different, none of them was reported, and every zombie
has exited. -/
structure Distinct (f : Forest) (reported exited : List Int) : Prop where
  inj : ∀ q r, (f.kin q).phase ≠ .free → (f.kin r).phase ≠ .free → (f.kin q).pid = (f.kin r).pid →
    q = r
  unreported : ∀ q, (f.kin q).phase ≠ .free → (f.kin q).pid ∉ reported
  given : ∀ x ∈ reported, f.Given x
  exited : ∀ z, (f.kin z).phase = .zombie → (f.kin z).pid ∈ exited

section

variable {f f' : Forest} {R E E' : List Int}

theorem Counted.given (hf : f.Counted) {q : Slot} (hq : (f.kin q).phase ≠ .free) :
    f.Given (f.kin q).pid := by
  obtain ⟨n, hle, hn, hok⟩ := hf
  have hpid : (f.kin q).pid < n := (hok.pid q hq).2
  have hone : 1 ≤ n := hok.next
  by_cases hlt : n < 2 ^ 31
  · right
    rw [hn, int32_eq (by omega) hlt]
    exact hpid
  · left
    obtain rfl : n = 2 ^ 31 := by omega
    rw [hn]
    decide

theorem Counted.embryo (hf : f.Counted) {cur np : Slot} {b : Bool}
    (hb : f.birth cur = some (np, b)) : (f.kin np).phase = .embryo := by
  obtain ⟨n, -, -, hok⟩ := hf
  exact (hok.born cur np b hb).1

theorem Given.step {l : Option Slot} (h : f.Step l f') (hf : f.Counted)
    (hpids : f'.nextpid = f.nextpid ∨ 0 < f.nextpid) {x : Int} (hx : f.Given x) : f'.Given x := by
  obtain ⟨n, -, hn, -⟩ := hf
  have hbound : f.nextpid < 2 ^ 31 := by
    rw [hn]
    exact Int.bmod_lt (by norm_num)
  unfold Given at *
  rcases h.nextpid with hsame | hnext
  · rwa [hsame]
  · have hpos := hpids.resolve_left (by rw [hnext]; exact int32_succ_ne _)
    have hlt := hx.resolve_left (by omega)
    by_cases hlast : f.nextpid = 2 ^ 31 - 1
    · left
      rw [hnext, hlast]
      decide
    · right
      rw [hnext, int32_eq (by omega) (by omega)]
      omega

theorem Distinct.change (hd : f.Distinct R E) (hf : f.Counted) (np : Slot)
    (hkin : ∀ q ≠ np, f'.kin q = f.kin q) (hgiven : ∀ x, f.Given x → f'.Given x)
    (hnp : (f'.kin np).phase ≠ .free →
      ((f.kin np).phase ≠ .free ∧ (f'.kin np).pid = (f.kin np).pid) ∨ ¬ f.Given (f'.kin np).pid)
    (hzombie : (f'.kin np).phase ≠ .zombie) (hE : ∀ x ∈ E, x ∈ E') : f'.Distinct R E' := by
  -- no other process has the pid of `np`
  have hother : ∀ r ≠ np, (f'.kin np).phase ≠ .free → (f.kin r).phase ≠ .free →
      (f'.kin np).pid ≠ (f.kin r).pid := by
    intro r hr hused hr' heq
    rcases hnp hused with ⟨hold, hpid⟩ | hfresh
    · exact hr (hd.inj np r hold hr' (hpid.symm.trans heq)).symm
    · exact hfresh (heq ▸ hf.given hr')
  constructor
  · intro q r hq hr heq
    by_cases hqn : q = np <;> by_cases hrn : r = np
    · exact hqn.trans hrn.symm
    · subst hqn
      rw [hkin r hrn] at hr heq
      exact absurd heq (hother r hrn hq hr)
    · subst hrn
      rw [hkin q hqn] at hq heq
      exact absurd heq.symm (hother q hqn hr hq)
    · rw [hkin q hqn] at hq heq
      rw [hkin r hrn] at hr heq
      exact hd.inj q r hq hr heq
  · intro q hq hmem
    by_cases hqn : q = np
    · subst hqn
      rcases hnp hq with ⟨hold, hpid⟩ | hfresh
      · exact hd.unreported q hold (hpid ▸ hmem)
      · exact hfresh (hd.given _ hmem)
    · rw [hkin q hqn] at hq hmem
      exact hd.unreported q hq hmem
  · exact fun x hx => hgiven x (hd.given x hx)
  · intro z hz
    by_cases hzn : z = np
    · exact absurd (hzn ▸ hz) hzombie
    · rw [hkin z hzn] at hz ⊢
      exact hE _ (hd.exited z hz)

/-- **Every change keeps the record right** as long as nothing is reported. -/
theorem Step.distinct {l : Option Slot} (h : f.Step l f') (hf : f.Counted)
    (hpids : f'.nextpid = f.nextpid ∨ 0 < f.nextpid) (hd : f.Distinct R E)
    (hE : ∀ x ∈ E, x ∈ E') (hl : ∀ cur ∈ l, (f.kin cur).pid ∈ E') : f'.Distinct R E' := by
  have hgiven : ∀ x, f.Given x → f'.Given x := fun x hx => hx.step h hf hpids
  -- the next pid is a new one
  have hnew : f'.nextpid = int32 (f.nextpid + 1) → ¬ f.Given f.nextpid := by
    intro hnext hg
    have hpos := hpids.resolve_left (by rw [hnext]; exact int32_succ_ne _)
    unfold Given at hg
    omega
  cases h with
  | stay => exact { hd with exited := fun z hz => hE _ (hd.exited z hz) }
  | boot p hinit =>
    exact hd.change hf p (fun q hq => by simp [hq]) hgiven
      (fun _ => .inr (by simpa using hnew rfl)) (by simp) hE
  | create cur np hcur hnp =>
    exact hd.change hf np (fun q hq => by simp [hq]) hgiven
      (fun _ => .inr (by simpa using hnew rfl)) (by simp) hE
  | abandon cur np hb =>
    exact hd.change hf np (fun q hq => by simp [hq]) hgiven (by simp) (by simp) hE
  | adopt cur np firstPid hb =>
    have hnp := hf.embryo hb
    exact hd.change hf np (fun q hq => by simp [hq]) hgiven
      (fun _ => .inl (by simp [hnp])) (by simp [hnp]) hE
  | publish cur np hb =>
    have hnp := hf.embryo hb
    exact hd.change hf np (fun q hq => by simp [hq]) hgiven
      (fun _ => .inl (by simp [hnp])) (by simp) hE
  | reap z hz =>
    exact hd.change hf z (fun q hq => by simp [hq]) hgiven (by simp) (by simp) hE
  | exit cur init hinit hne hcur hb =>
    have hused : ∀ q, ((f.afterExit cur init).kin q).phase ≠ .free → (f.kin q).phase ≠ .free := by
      intro q hq
      rw [afterExit_phase] at hq
      split at hq
      · rename_i hqc
        simp [hqc, hcur]
      · exact hq
    constructor
    · intro q r hq hr heq
      rw [afterExit_pid, afterExit_pid] at heq
      exact hd.inj q r (hused q hq) (hused r hr) heq
    · intro q hq
      rw [afterExit_pid]
      exact hd.unreported q (hused q hq)
    · exact fun x hx => hgiven x (hd.given x hx)
    · intro z hz
      rw [afterExit_pid]
      rw [afterExit_phase] at hz
      split at hz
      · rename_i hzc
        exact hzc ▸ hl cur rfl
      · exact hE _ (hd.exited z hz)

theorem Distinct.report (hd : f.Distinct R E) (hf : f.Counted) {z : Slot}
    (hz : (f.kin z).phase = .zombie) (hkin : ∀ q ≠ z, f'.kin q = f.kin q)
    (hfree : (f'.kin z).phase = .free) (hnext : f'.nextpid = f.nextpid) :
    f'.Distinct ((f.kin z).pid :: R) E := by
  have hsame : ∀ q, (f'.kin q).phase ≠ .free → q ≠ z := by
    rintro q hq rfl
    exact hq hfree
  have hgiven : ∀ x, f.Given x → f'.Given x := by
    intro x hx
    unfold Given
    rwa [hnext]
  have hd' : f'.Distinct R E := by
    refine hd.change hf z hkin hgiven (fun h => absurd hfree h) ?_ fun _ h => h
    simp [hfree]
  refine ⟨hd'.inj, fun q hq hmem => ?_, fun x hx => ?_, hd'.exited⟩
  · rcases List.mem_cons.1 hmem with heq | hmem
    · have hqz := hsame q hq
      rw [hkin q hqz] at hq heq
      exact hqz (hd.inj q z hq (by simp [hz]) heq)
    · exact hd'.unreported q hq hmem
  · rcases List.mem_cons.1 hx with rfl | hx
    · exact hgiven _ (hf.given (by simp [hz]))
    · exact hd'.given x hx

end

end Forest

/-! ## What the calls return -/

namespace Kernel

section

variable {k k' : Kernel} {c : Nat} {cur : Slot} {o : Op}

/-- The zombie `z` is cleared, and nothing else in the family changes. -/
structure Takes (k : Kernel) (z : Slot) (k' : Kernel) : Prop where
  zombie : (k.proc z).state = .zombie
  kin : ∀ q ≠ z, (k'.proc q).kin = (k.proc q).kin
  free : (k'.proc z).state = .unused
  nextpid : k'.nextpid = k.nextpid

theorem takes_of_cleared {z : Slot} (hz : (k.proc z).state = .zombie) :
    k.Takes z (((k.modify cur (·.awake)).modify z (·.cleared)).setCtl cur .user) := by
  refine ⟨hz, fun q hq => ?_, by simp, rfl⟩
  rw [setCtl_proc, modify_proc, if_neg hq]
  exact modify_field Proc.kin (f := Proc.awake) (fun _ => rfl) k cur q

theorem scan_awake (hk : k.Wf) (hctl : k.ctl cur = .user) : k.modify cur (·.awake) = k :=
  modify_awake_eq (hk.chanNull hctl)

/-- **A pid that `diagwait` returns** is that of an exited child, which it clears. -/
theorem returned_diagwait (hk : k.Wf) {pid : Int} (h : k.returned c cur .diagwait = some pid)
    (hpid : pid ≠ -1) : ∃ z, k.WaitTarget cur z ∧ (k.proc z).state = .zombie ∧
        (k.proc z).pid = pid ∧
      ∀ k', k.op c cur .diagwait = some k' → k.Takes z k' := by
  -- both ways into the scan are the one after a wakeup
  have hscan : ((k.modify cur (·.awake)).diagwait c cur).1 = some pid ∧
      ∀ k', k.op c cur .diagwait = some k' →
        k' = ((k.modify cur (·.awake)).diagwait c cur).2 := by
    simp only [returned] at h
    simp only [op]
    by_cases huser : k.ctl cur = .user
    · rw [if_pos huser] at h ⊢
      rw [scan_awake hk huser]
      exact ⟨h, fun k' hk' => (Option.some.inj hk').symm⟩
    · rw [if_neg huser] at h ⊢
      rw [Option.ite_none_right_eq_some] at h
      rw [if_pos h.1]
      exact ⟨h.2, fun k' hk' => (Option.some.inj hk').symm⟩
  obtain ⟨hret, hop⟩ := hscan
  rw [diagwait] at hret hop
  split at hret
  · rename_i z hfound
    rw [hfound] at hop
    obtain ⟨htarget, hz⟩ := waitScan_found hfound
    rw [waitTarget_awake] at htarget
    rw [modify_field (·.state) Proc.awake_state] at hz
    rw [modify_field (·.pid) Proc.awake_pid, Option.some.injEq] at hret
    refine ⟨z, htarget, hz, hret, fun k' hk' => ?_⟩
    rw [hop k' hk']
    exact takes_of_cleared hz
  · exact absurd (Option.some.inj hret).symm hpid
  · split at hret
    · exact absurd (Option.some.inj hret).symm hpid
    · cases hret

/-- **A `thread_join` that does not return `-2`** has found its thread, exited, and clears it. -/
theorem returned_threadJoin (hk : k.Wf) {tid r : Int}
    (h : k.returned c cur (.threadJoin tid) = some r) (hr : r ≠ -2) :
    ∃ z, k.JoinTarget cur tid z ∧ (k.proc z).state = .zombie ∧
      r = (if (k.proc z).killed then -1 else 0) ∧
      ∀ k', k.op c cur (.threadJoin tid) = some k' → k.Takes z k' := by
  have hscan : ((k.modify cur (·.awake)).threadJoin c cur tid).1 = some r ∧
      ∀ k', k.op c cur (.threadJoin tid) = some k' →
        k' = ((k.modify cur (·.awake)).threadJoin c cur tid).2 := by
    simp only [returned] at h
    simp only [op]
    by_cases huser : k.ctl cur = .user
    · rw [if_pos huser] at h ⊢
      by_cases hself : tid = (k.proc cur).pid
      · rw [if_pos hself] at h
        exact absurd (Option.some.inj h).symm hr
      · rw [if_neg hself] at h ⊢
        rw [scan_awake hk huser]
        exact ⟨h, fun k' hk' => (Option.some.inj hk').symm⟩
    · rw [if_neg huser] at h ⊢
      rw [Option.ite_none_right_eq_some] at h
      rw [if_pos h.1]
      exact ⟨h.2, fun k' hk' => (Option.some.inj hk').symm⟩
  obtain ⟨hret, hop⟩ := hscan
  rw [threadJoin] at hret hop
  split at hret
  · exact absurd (Option.some.inj hret).symm hr
  · rename_i z hfound
    rw [hfound] at hop
    obtain ⟨htarget, -, hz⟩ := joinScan_found hfound
    rw [joinTarget_awake] at htarget
    rw [modify_field (·.state) Proc.awake_state] at hz
    rw [modify_field (·.killed) Proc.awake_killed, Option.some.injEq] at hret
    refine ⟨z, htarget, hz, hret.symm, fun k' hk' => ?_⟩
    rw [hop k' hk']
    exact takes_of_cleared hz
  · exact absurd (Option.some.inj hret).symm hr
  · split at hret
    · exact absurd (Option.some.inj hret).symm hr
    · cases hret

/-- **A pid that is reported** is that of a zombie, which is cleared. -/
theorem reports_takes (hk : k.Wf) {pid : Int} (h : k.reports c cur o = some pid)
    (hs : k.op c cur o = some k') : ∃ z, (k.proc z).pid = pid ∧ k.Takes z k' := by
  unfold reports at h
  split at h
  · rename_i r hret
    rw [Option.ite_none_left_eq_some] at h
    obtain ⟨hr, heq⟩ := h
    cases heq
    obtain ⟨z, -, -, hpid, htakes⟩ := returned_diagwait hk hret hr
    exact ⟨z, hpid, htakes k' hs⟩
  · rename_i tid r hret
    rw [Option.ite_none_left_eq_some] at h
    obtain ⟨hr, heq⟩ := h
    cases heq
    obtain ⟨z, htarget, -, -, htakes⟩ := returned_threadJoin hk hret hr
    exact ⟨z, htarget.2.2, htakes k' hs⟩
  · cases h

end

end Kernel

/-! ## Runs -/

namespace Collecting

/-- **The invariant** of the kernel and the record. -/
structure Ok (s : Collecting) : Prop where
  wf : s.kernel.Wf
  counted : s.kernel.forest.Counted
  distinct : s.kernel.forest.Distinct s.reported s.exited
  nodup : s.reported.Nodup

theorem start_ok (ncpu : Nat) : (start ncpu).Ok :=
  ⟨Kernel.boot_wf ncpu, Kernel.boot_counted ncpu, by constructor <;> simp [start, boot],
    List.nodup_nil⟩

section

variable {s s' : Collecting}

theorem newReports_cases {e : Event} {k : Kernel} (hs : s.kernel.step e = some k) :
    s.newReports e = [] ∨ ∃ c cur o pid, s.newReports e = [pid] ∧ s.newExits e = [] ∧
      s.kernel.reports c cur o = some pid ∧ s.kernel.op c cur o = some k := by
  unfold newReports
  cases hact : s.actor e with
  | none => exact .inl rfl
  | some a =>
    obtain ⟨c, cur, o⟩ := a
    obtain ⟨rfl, hcur⟩ : e = .call c o ∧ s.kernel.cpu c = some cur := by
      unfold actor at hact
      split at hact
      · simp only [Option.map_eq_some_iff, Prod.mk.injEq] at hact
        obtain ⟨cur', hcur, rfl, rfl, rfl⟩ := hact
        exact ⟨rfl, hcur⟩
      · cases hact
    cases hrep : s.kernel.reports c cur o with
    | none => exact .inl (by simp [hrep])
    | some pid =>
      refine .inr ⟨c, cur, o, pid, by simp [hrep], ?_, hrep, ?_⟩
      · -- a step that reports something is not an exit
        unfold newExits
        rw [hact]
        cases o <;> first | rfl | simp [Kernel.reports] at hrep
      · simp only [Kernel.step, hcur] at hs
        split at hs
        · cases hs
        · exact hs

theorem Ok.step {e : Event} (h : s.Ok) (hg : s.PidsFresh e) (hs : s.step e = some s') : s'.Ok := by
  rw [Collecting.step, Option.map_eq_some_iff] at hs
  obtain ⟨k, hk, rfl⟩ := hs
  have hwf := Kernel.step_wf h.wf hk
  have hcounted := Kernel.step_counted h.wf h.counted hg hk
  rcases newReports_cases hk with hnone | ⟨c, cur, o, pid, hnew, hexits, hrep, hop⟩
  · -- nothing is reported: the family changes as it may
    obtain ⟨l, hstep, hl⟩ := Kernel.step_forest h.wf hk
    refine ⟨hwf, hcounted, ?_, ?_⟩
    · rw [hnone]
      refine hstep.distinct h.counted ((Kernel.step_nextpid h.wf hk).imp_right hg) h.distinct
        (fun x hx => List.mem_append_right _ hx) fun cur hcur => List.mem_append_left _ ?_
      obtain ⟨c, rfl, hc⟩ := hl cur hcur
      simp [newExits, actor, hc]
    · rw [hnone]
      exact h.nodup
  · -- the pid reported is that of a zombie, and nobody else has it
    obtain ⟨z, rfl, htakes⟩ := Kernel.reports_takes h.wf hrep hop
    have hz : (s.kernel.forest.kin z).phase = .zombie := zombie_iff_phase.1 htakes.zombie
    refine ⟨hwf, hcounted, ?_, ?_⟩
    · rw [hnew, hexits]
      refine h.distinct.report h.counted hz htakes.kin ?_ htakes.nextpid
      show (k.proc z).state.phase = .free
      rw [htakes.free]
      rfl
    · rw [hnew]
      exact List.nodup_cons.2 ⟨h.distinct.unreported z (by rw [hz]; exact Phase.noConfusion),
        h.nodup⟩

theorem Ok.right (h : s.Ok) (c : Nat) (cur : Slot) : s.Right c cur := by
  -- a zombie has exited and was not reported
  have hzombie : ∀ z, (s.kernel.proc z).state = .zombie →
      (s.kernel.proc z).pid ∉ s.reported ∧ (s.kernel.proc z).pid ∈ s.exited := by
    intro z hz
    have hz : (s.kernel.forest.kin z).phase = .zombie := zombie_iff_phase.1 hz
    exact ⟨h.distinct.unreported z (by rw [hz]; exact Phase.noConfusion), h.distinct.exited z hz⟩
  constructor
  · intro pid hret hpid
    obtain ⟨z, htarget, hz, rfl, -⟩ := Kernel.returned_diagwait h.wf hret hpid
    exact ⟨(hzombie z hz).1, (hzombie z hz).2, z, rfl, htarget.2⟩
  · intro tid r hret hr
    obtain ⟨z, ⟨-, hgroup, rfl⟩, hz, hkilled, -⟩ := Kernel.returned_threadJoin h.wf hret hr
    exact ⟨(hzombie z hz).1, (hzombie z hz).2, z, rfl, hgroup, hkilled⟩

end

/-- **Every exit is collected at most once**, by the right caller and after it happened, in every
run with fewer than `2 ^ 31` creations. -/
theorem collected_once {ncpu : Nat} {s : Collecting}
    (h : Run Collecting.step PidsFresh (start ncpu) s) :
    s.reported.Nodup ∧ ∀ c cur, s.Right c cur := by
  have hok : s.Ok := Run.invariant Ok (start_ok ncpu) (fun _ _ _ h hg hs => h.step hg hs) h
  exact ⟨hok.nodup, hok.right⟩

/-- The first process forks a child, which makes a thread, is told to die, joins the thread and
exits; both pids have been reported when the first process has waited. -/
theorem collected_once_each : ∃ s, Run Collecting.step PidsFresh (start 1) s ∧ s.reported = [2, 3] ∧
    s.reported.Nodup ∧ ∀ c cur, s.Right c cur := by
  obtain ⟨s, hrun, hs⟩ := exists_run_of_runs Collecting.step PidsFresh (start 1)
    [.userinit, .dispatch 0 0, .call 0 (.allocproc false), .call 0 .adopt, .call 0 .publish,
      .call 0 .diagwait, .dispatch 0 1, .call 0 (.allocproc true), .call 0 .adopt, .call 0 .publish,
      .call 0 (.kill 3), .call 0 (.threadJoin 3), .dispatch 0 2, .call 0 .exit, .dispatch 0 1,
      .call 0 (.threadJoin 3), .call 0 .exit, .dispatch 0 0, .call 0 .diagwait]
    (fun s => decide (s.reported = [2, 3])) (by decide +kernel)
  exact ⟨s, hrun, of_decide_eq_true hs, collected_once hrun⟩

/-- **Pids are unique**: two slots in use never have the same pid, and a pid that was reported is
not used again. -/
theorem pids_unique {ncpu : Nat} {s : Collecting} (h : Run Collecting.step PidsFresh (start ncpu) s)
    {p : Slot}
    (hp : (s.kernel.proc p).state ≠ .unused) :
    (s.kernel.proc p).pid ∉ s.reported ∧
      ∀ q ≠ p, (s.kernel.proc q).state ≠ .unused →
        (s.kernel.proc q).pid ≠ (s.kernel.proc p).pid := by
  have hok : s.Ok := Run.invariant Ok (start_ok ncpu) (fun _ _ _ h hg hs => h.step hg hs) h
  have hphase : ∀ q, (s.kernel.proc q).state ≠ .unused → (s.kernel.forest.kin q).phase ≠ .free := by
    intro q hq
    show (s.kernel.proc q).state.phase ≠ .free
    cases hs : (s.kernel.proc q).state <;> simp_all
  exact ⟨hok.distinct.unreported p (hphase p hp),
    fun q hne hq heq => hne (hok.distinct.inj q p (hphase q hq) (hphase p hp) heq)⟩

/-- The first process and the one that it is creating have different pids. -/
theorem pids_unique_two : ∃ s, Run Collecting.step PidsFresh (start 1) s ∧
    (s.kernel.proc 0).pid ≠ (s.kernel.proc 1).pid := by
  obtain ⟨s, hrun, hs⟩ := exists_run_of_runs Collecting.step PidsFresh (start 1)
    [.userinit, .dispatch 0 0, .call 0 (.allocproc false)]
    (fun s => decide ((s.kernel.proc 1).state ≠ .unused ∧ (s.kernel.proc 0).state ≠ .unused))
      (by decide +kernel)
  obtain ⟨hone, hzero⟩ := of_decide_eq_true hs
  exact ⟨s, hrun, (pids_unique hrun hone).2 0 (by decide) hzero⟩

end Collecting

end Xv6
