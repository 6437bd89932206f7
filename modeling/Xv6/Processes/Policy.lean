import Xv6.Foundation.Runs

/-! # The scheduling policy of every CPU

`change_policy` and `get_policy` of `proc.c`, and the part of `scheduler` that reads and repairs
`c->schedAlg`. `change_policy` stores the new number into one CPU after the other with only its own
interrupts disabled, so that calls on different CPUs interleave store by store.

* **`policies_agree`** — between calls every CPU uses the policy of the last change, in every run in
  which calls that overlap ask for the same policy;
* **`policies_mixed`** — and a run in which two calls overtake each other. -/

namespace Xv6

open Foundation

/-- Where a CPU stands in `change_policy` or in `scheduler`. -/
inductive PolicyCtl
  /-- Anywhere else. -/
  | out
  /-- In the loop of `change_policy(policy)`, about to visit CPU `i`. -/
  | changing (policy i : Nat)
  /-- In `scheduler`, with `c->schedAlg` loaded for the `switch`. -/
  | scheduling (alg : Nat)
  deriving DecidableEq, Repr

/-- `cpus[i].schedAlg`, what each CPU is doing, and the policy of the last change that returned. -/
structure Policies where
  ncpu : Nat
  schedAlg : Nat → Nat
  ctl : Nat → PolicyCtl
  last : Nat

/-- What a CPU does next. -/
inductive PolicyOp
  /-- The call `change_policy(policy)`, up to the loop. -/
  | changePolicy (policy : Int)
  /-- One iteration of the loop of `change_policy`. -/
  | store
  /-- The return from `change_policy` after the loop. -/
  | finish
  /-- `scheduler` loads `c->schedAlg`. -/
  | load
  /-- `scheduler` takes the branch of the `switch`. -/
  | branch
  deriving DecidableEq, Repr

namespace Policies

/-- The CPUs at boot: the data segment is zero. -/
def boot (ncpu : Nat) : Policies := ⟨ncpu, fun _ => 0, fun _ => .out, 0⟩

/-- Set `cpus[i].schedAlg`. -/
def setAlg (s : Policies) (i alg : Nat) : Policies :=
  { s with schedAlg := fun j => if j = i then alg else s.schedAlg j }

/-- Move CPU `c` to another point of the code. -/
def setCtl (s : Policies) (c : Nat) (x : PolicyCtl) : Policies :=
  { s with ctl := fun d => if d = c then x else s.ctl d }

/-- `get_policy`. -/
def getPolicy (s : Policies) : Nat := s.schedAlg 0

/-- The value that the `switch` of `scheduler` leaves in `c->schedAlg`: the `default` branch repairs
a number that is no policy. -/
def repaired (alg : Nat) : Option Nat := if alg ≤ 4 then none else some 0

/-- **One step** of CPU `c`. -/
def step (s : Policies) : Nat × PolicyOp → Option Policies
  | (c, .changePolicy policy) =>
    if c < s.ncpu ∧ s.ctl c = .out then
      -- a number that is no policy is refused before the first store
      if policy < 0 ∨ 4 < policy then some s else some (s.setCtl c (.changing policy.toNat 0))
    else none
  | (c, .store) =>
    match s.ctl c with
    | .changing policy i =>
      if i < s.ncpu then some ((s.setAlg i policy).setCtl c (.changing policy (i + 1))) else none
    | _ => none
  | (c, .finish) =>
    match s.ctl c with
    | .changing policy i =>
      if i < s.ncpu then none else some { s.setCtl c .out with last := policy }
    | _ => none
  | (c, .load) =>
    if c < s.ncpu ∧ s.ctl c = .out then some (s.setCtl c (.scheduling (s.schedAlg c))) else none
  | (c, .branch) =>
    match s.ctl c with
    | .scheduling alg =>
      match repaired alg with
      | none => some (s.setCtl c .out)
      | some alg => some ((s.setAlg c alg).setCtl c .out)
    | _ => none

/-- A call of `change_policy` is in progress on CPU `c`. -/
def Changing (s : Policies) (c : Nat) : Prop := ∃ policy i, s.ctl c = .changing policy i

/-- **The CPUs agree**: between calls every CPU uses the policy of the last change, and `get_policy`
reports it. -/
def Agree (s : Policies) : Prop :=
  (∀ c, ¬ s.Changing c) → (∀ i < s.ncpu, s.schedAlg i = s.last) ∧ s.getPolicy = s.last

/-- The condition on the steps: a call begins only while the calls in progress, if there are any,
ask for the same policy. -/
def Alone (s : Policies) : Nat × PolicyOp → Prop
  | (_, .changePolicy policy) =>
    ∀ d < s.ncpu, match s.ctl d with
      | .changing other _ => (other : Int) = policy
      | _ => True
  | _ => True

instance (s : Policies) (e : Nat × PolicyOp) : Decidable (s.Alone e) := by
  obtain ⟨c, o⟩ := e
  cases o with
  | changePolicy policy =>
    have : ∀ d, Decidable (match s.ctl d with
        | .changing other _ => (other : Int) = policy
        | _ => True) := fun d => by split <;> infer_instance
    exact inferInstanceAs (Decidable (∀ d < s.ncpu, _))
  | _ => exact isTrue trivial

/-- Only CPUs of the machine do anything. -/
def Inside (s : Policies) : Prop := ∀ c, s.ctl c ≠ .out → c < s.ncpu

/-- **The invariant**: every number is a policy, the calls in progress ask for one policy `new`, the
CPUs they have visited use it, and a CPU that does not use the last policy uses `new`. -/
structure Ok (s : Policies) : Prop where
  inside : s.Inside
  valid : ∀ i, s.schedAlg i ≤ 4
  /-- The `default` branch of the `switch` is never taken. -/
  loaded : ∀ c alg, s.ctl c = .scheduling alg → alg ≤ 4
  calls : ∃ new ≤ 4, (∀ i < s.ncpu, s.schedAlg i = s.last ∨ s.schedAlg i = new) ∧
    (new = s.last ∨ ∃ c, s.Changing c) ∧
    ∀ c policy i, s.ctl c = .changing policy i → policy = new ∧ ∀ j < i, s.schedAlg j = new

theorem boot_ok (ncpu : Nat) : (boot ncpu).Ok :=
  ⟨by simp [boot, Inside], by simp [boot], by simp [boot], 0, by simp [boot]⟩

section

variable {s s' : Policies}

theorem Inside.setCtl (h : s.Inside) {c : Nat} (hc : c < s.ncpu) {x : PolicyCtl}
    (hncpu : s'.ncpu = s.ncpu) (hctl : s'.ctl = (s.setCtl c x).ctl) :
    s'.ncpu = s.ncpu ∧ s'.Inside := by
  refine ⟨hncpu, fun d hd => ?_⟩
  rw [hncpu]
  by_cases hdc : d = c
  · exact hdc ▸ hc
  · exact h d (by simpa [hctl, Policies.setCtl, hdc] using hd)

theorem step_inside {e : Nat × PolicyOp} (h : s.Inside) (hs : s.step e = some s') :
    s'.ncpu = s.ncpu ∧ s'.Inside := by
  obtain ⟨c, o⟩ := e
  -- a CPU in the middle of something is one of the machine
  have hbusy : ∀ x, s.ctl c = x → x ≠ .out → c < s.ncpu := by
    rintro x rfl hx
    exact h c hx
  cases o with
  | changePolicy policy =>
    simp only [Policies.step, Option.ite_none_right_eq_some] at hs
    obtain ⟨⟨hc, -⟩, hs⟩ := hs
    split at hs <;> obtain rfl := Option.some.inj hs
    · exact ⟨rfl, h⟩
    · exact h.setCtl hc rfl rfl
  | store | finish =>
    simp only [Policies.step] at hs
    split at hs
    case h_2 => cases hs
    rename_i hctl
    split at hs <;> cases hs
    exact h.setCtl (hbusy _ hctl (by simp)) rfl rfl
  | load =>
    simp only [Policies.step, Option.ite_none_right_eq_some] at hs
    obtain ⟨⟨hc, -⟩, hs⟩ := hs
    cases hs
    exact h.setCtl hc rfl rfl
  | branch =>
    simp only [Policies.step] at hs
    split at hs
    case h_2 => cases hs
    rename_i hctl
    split at hs <;> cases hs <;> exact h.setCtl (hbusy _ hctl (by simp)) rfl rfl

theorem Ok.agree (h : s.Ok) (hcpu : 0 < s.ncpu) : s.Agree := by
  intro hnone
  obtain ⟨new, -, halg, hnew, -⟩ := h.calls
  have hlast : new = s.last := hnew.resolve_right fun ⟨c, hc⟩ => hnone c hc
  have hall : ∀ i < s.ncpu, s.schedAlg i = s.last := by
    intro i hi
    exact (halg i hi).elim id fun hi => hi.trans hlast
  exact ⟨hall, hall 0 hcpu⟩

theorem Ok.setCtl (h : s.Ok) {c : Nat} {x : PolicyCtl} (hc : c < s.ncpu) (hout : ¬ s.Changing c)
    (hx : x = .out ∨ ∃ alg ≤ 4, x = .scheduling alg) : (s.setCtl c x).Ok := by
  obtain ⟨new, hnew, halg, hlast, hcalls⟩ := h.calls
  have hstill : ∀ d policy i, (s.setCtl c x).ctl d = .changing policy i ↔
      s.ctl d = .changing policy i := by
    intro d policy i
    by_cases hd : d = c
    · subst hd
      have hno : s.ctl d ≠ .changing policy i := fun hd => hout ⟨policy, i, hd⟩
      rcases hx with rfl | ⟨alg, -, rfl⟩ <;> simp [Policies.setCtl, hno]
    · simp [Policies.setCtl, hd]
  constructor
  · intro d hd
    by_cases hdc : d = c
    · exact hdc ▸ hc
    · exact h.inside d (by simpa [Policies.setCtl, hdc] using hd)
  · exact h.valid
  · intro d alg hd
    by_cases hdc : d = c
    · rcases hx with rfl | ⟨alg', halg', rfl⟩
      · simp [Policies.setCtl, hdc] at hd
      · obtain rfl : alg' = alg := by simpa [Policies.setCtl, hdc] using hd
        exact halg'
    · exact h.loaded d alg (by simpa [Policies.setCtl, hdc] using hd)
  · refine ⟨new, hnew, halg, hlast.imp_right ?_, fun d policy i hd => hcalls d policy i ?_⟩
    · rintro ⟨d, policy, i, hd⟩
      exact ⟨d, policy, i, (hstill d policy i).2 hd⟩
    · exact (hstill d policy i).1 hd

theorem Ok.step (h : s.Ok) {e : Nat × PolicyOp} (hg : s.Alone e) (hs : s.step e = some s') :
    s'.Ok := by
  have hin := (step_inside h.inside hs).2
  obtain ⟨c, o⟩ := e
  obtain ⟨new, hnew, halg, hlast, hcalls⟩ := h.calls
  cases o with
  | changePolicy policy =>
    simp only [Policies.step, Option.ite_none_right_eq_some] at hs
    obtain ⟨⟨hc, hout⟩, hs⟩ := hs
    split at hs
    · cases hs
      exact h
    rename_i hrange
    cases hs
    -- the calls in progress ask for the same policy
    have hsame : ∀ d other i, s.ctl d = .changing other i → other = policy.toNat := by
      intro d other i hd
      have hother := hg d (h.inside d (by simp [hd]))
      simp only [hd] at hother
      omega
    constructor
    · exact hin
    · exact h.valid
    · intro d alg hd
      by_cases hdc : d = c
      · simp [Policies.setCtl, hdc] at hd
      · exact h.loaded d alg (by simpa [Policies.setCtl, hdc] using hd)
    · refine ⟨policy.toNat, by omega, ?_, .inr ⟨c, policy.toNat, 0, by simp [Policies.setCtl]⟩, ?_⟩
      · intro i hi
        rcases hlast with rfl | ⟨d, other, j, hd⟩
        · exact .inl ((halg i hi).elim id id)
        · rw [← hsame d other j hd, (hcalls d other j hd).1]
          exact halg i hi
      · intro d other i hd
        by_cases hdc : d = c
        · obtain ⟨rfl, rfl⟩ : policy.toNat = other ∧ 0 = i := by
            simpa [Policies.setCtl, hdc] using hd
          exact ⟨rfl, by simp⟩
        · have hd : s.ctl d = .changing other i := by simpa [Policies.setCtl, hdc] using hd
          rw [← hsame d other i hd, (hcalls d other i hd).1]
          exact ⟨rfl, (hcalls d other i hd).2⟩
  | store =>
    simp only [Policies.step] at hs
    split at hs
    case h_2 => cases hs
    rename_i policy i hctl
    rw [Option.ite_none_right_eq_some] at hs
    obtain ⟨hi, hs⟩ := hs
    cases hs
    obtain ⟨rfl, hdone⟩ := hcalls c policy i hctl
    constructor
    · exact hin
    · intro j
      by_cases hj : j = i
      · simpa [Policies.setCtl, setAlg, hj] using hnew
      · simpa [Policies.setCtl, setAlg, hj] using h.valid j
    · intro d alg hd
      by_cases hdc : d = c
      · simp [Policies.setCtl, hdc] at hd
      · exact h.loaded d alg (by simpa [Policies.setCtl, setAlg, hdc] using hd)
    · refine ⟨policy, hnew, ?_, .inr ⟨c, policy, i + 1, by simp [Policies.setCtl]⟩, ?_⟩
      · intro j hj
        by_cases hji : j = i
        · exact .inr (by simp [Policies.setCtl, setAlg, hji])
        · simpa [Policies.setCtl, setAlg, hji] using halg j hj
      · intro d other j hd
        -- a CPU visited by any of the calls still uses the policy after the store
        have hkept : ∀ n, s.schedAlg n = policy →
            ((s.setAlg i policy).setCtl c (.changing policy (i + 1))).schedAlg n = policy := by
          intro n hn
          simp [Policies.setCtl, setAlg, hn]
        by_cases hdc : d = c
        · obtain ⟨rfl, rfl⟩ : policy = other ∧ i + 1 = j := by
            simpa [Policies.setCtl, setAlg, hdc] using hd
          refine ⟨rfl, fun n hn => ?_⟩
          by_cases hni : n = i
          · simp [Policies.setCtl, setAlg, hni]
          · exact hkept n (hdone n (by omega))
        · obtain ⟨rfl, hvisited⟩ := hcalls d other j
            (by simpa [Policies.setCtl, setAlg, hdc] using hd)
          exact ⟨rfl, fun n hn => hkept n (hvisited n hn)⟩
  | finish =>
    simp only [Policies.step] at hs
    split at hs
    case h_2 => cases hs
    rename_i policy i hctl
    rw [Option.ite_none_left_eq_some] at hs
    obtain ⟨hi, hs⟩ := hs
    cases hs
    obtain ⟨rfl, hdone⟩ := hcalls c policy i hctl
    constructor
    · exact hin
    · exact h.valid
    · intro d alg hd
      by_cases hdc : d = c
      · simp [Policies.setCtl, hdc] at hd
      · exact h.loaded d alg (by simpa [Policies.setCtl, hdc] using hd)
    · refine ⟨policy, hnew, fun j hj => .inl (hdone j ?_), .inl rfl, fun d other j hd => ?_⟩
      · -- the loop has visited every CPU
        have hj : j < s.ncpu := hj
        omega
      · by_cases hdc : d = c
        · simp [Policies.setCtl, hdc] at hd
        · exact hcalls d other j (by simpa [Policies.setCtl, hdc] using hd)
  | load =>
    simp only [Policies.step, Option.ite_none_right_eq_some] at hs
    obtain ⟨⟨hc, hout⟩, hs⟩ := hs
    cases hs
    exact h.setCtl hc (by simp [Changing, hout]) (.inr ⟨_, h.valid c, rfl⟩)
  | branch =>
    simp only [Policies.step] at hs
    split at hs
    case h_2 => cases hs
    rename_i alg hctl
    rw [repaired, if_pos (h.loaded c alg hctl)] at hs
    cases hs
    exact h.setCtl (h.inside c (by simp [hctl])) (by simp [Changing, hctl]) (.inl rfl)

theorem Inside.out (h : s.Inside) (hout : ∀ c < s.ncpu, s.ctl c = .out) (c : Nat) :
    ¬ s.Changing c := by
  rintro ⟨policy, i, hc⟩
  have hlt := h c (by simp [hc])
  simp [hout c hlt] at hc

end

/-- **The CPUs agree on the policy** in every run in which calls that overlap ask for the same
one. -/
theorem policies_agree {ncpu : Nat} (hcpu : 1 ≤ ncpu) {s : Policies}
    (h : Run Policies.step Alone (boot ncpu) s) : s.Agree := by
  have hinv : s.Ok ∧ s.ncpu = ncpu := by
    refine Run.invariant (fun s => s.Ok ∧ s.ncpu = ncpu) ⟨boot_ok ncpu, rfl⟩ ?_ h
    rintro s e s' ⟨hok, hn⟩ hg hs
    exact ⟨hok.step hg hs, (step_inside hok.inside hs).1.trans hn⟩
  exact hinv.1.agree (by omega)

/-- Two CPUs, the first changes to policy 2 and then the second to policy 3. -/
theorem policies_agree_in_turn : ∃ s, Run Policies.step Alone (boot 2) s ∧
    (s.last = 3 ∧ s.ncpu = 2 ∧ ∀ c < s.ncpu, s.ctl c = .out) ∧ s.Agree := by
  obtain ⟨s, hrun, hs⟩ := exists_run_of_runs Policies.step Alone (boot 2)
    [(0, .changePolicy 2), (0, .store), (1, .load), (0, .store), (1, .branch), (0, .finish),
      (1, .changePolicy 3), (1, .store), (1, .store), (1, .finish)]
    (fun s => decide (s.last = 3 ∧ s.ncpu = 2 ∧ ∀ c < s.ncpu, s.ctl c = .out)) (by decide)
  exact ⟨s, hrun, of_decide_eq_true hs, policies_agree (by omega) hrun⟩

/-- **CPUs with different policies**: the second CPU's call overtakes the first one's after its
first store, so that CPU 0 keeps policy 3 and CPU 1 policy 2 when both have returned. -/
theorem policies_mixed : ∃ s, Reachable Policies.step (boot 2) s ∧ ¬ s.Agree := by
  obtain ⟨s, hrun, hs⟩ := exists_run_of_runs Policies.step (fun _ _ => True) (boot 2)
    [(0, .changePolicy 2), (0, .store), (1, .changePolicy 3), (1, .store),
      (1, .store), (1, .finish), (0, .store), (0, .finish)]
    (fun s => decide ((∀ c < s.ncpu, s.ctl c = .out) ∧ s.last = 2 ∧ s.getPolicy = 3)) (by decide)
  obtain ⟨hout, hlast, hget⟩ := of_decide_eq_true hs
  have hin : s.Inside :=
    Run.invariant Inside (boot_ok 2).inside (fun _ _ _ h _ hs => (step_inside h hs).2) hrun
  refine ⟨s, hrun, fun hagree => ?_⟩
  have hsame := (hagree (hin.out hout)).2
  omega

end Policies

end Xv6
