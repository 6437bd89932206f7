import Xv6.Processes.Scheduler

/-! # Processes in turn

The iterations of `scheduler` on one CPU, one after the other, with the process table changed in any
way in between. `c->RRLastProc` is all that an iteration knows of the ones before it.

* **`neverOvertakes_iff`** — under policies 0 and 1 nobody is chosen twice past a process that was
  `RUNNABLE` all the time, but for slot 0: the pointer is not moved away from the beginning of the
  table, and so slot 0 is chosen again as long as it is `RUNNABLE`;
* **`selected_within`** — but for slot 0, nobody waits for more than `NPROC` iterations;
* **`inTurn`** — under policies 2 and 3 processes of one priority are chosen in turn as long as the
  pointer is moved past none of them by a more urgent process, slot 0 is not chosen twice in a row,
  and the pointer is not at the last slot;
* **`robin_overtakes`**, **`urgent_overtakes`** — the turns that are lost. -/

namespace Xv6

open Foundation

/-- **A sequence of iterations** of `scheduler` on one CPU: the process table at each of them, what
is behind the table, the policy and the random number, and `c->RRLastProc` before the first one. -/
structure Rounds where
  table : Nat → Kernel
  beyond : Nat → Proc
  alg : Nat → Nat
  rand : Nat → Int
  first : Option Nat

namespace Rounds

/-- `c->RRLastProc` before iteration `n`. -/
def last (r : Rounds) : Nat → Option Nat
  | 0 => r.first
  | n + 1 => ((r.table n).choose (r.beyond n) (r.alg n) (r.last n) (r.rand n)).map Choice.last

/-- What iteration `n` decides. -/
def choice (r : Rounds) (n : Nat) : Option Choice :=
  (r.table n).choose (r.beyond n) (r.alg n) (r.last n) (r.rand n)

/-- The entry of the table that iteration `n` selects. -/
def selected (r : Rounds) (n : Nat) : Option Nat := (r.choice n).bind Choice.chosen

/-- The slot is `RUNNABLE` at iteration `n`. -/
def Runnable (r : Rounds) (n : Nat) (p : Slot) : Prop := ((r.table n).proc p).state = .runnable

/-- The priority of a slot at iteration `n`. -/
def priority (r : Rounds) (n : Nat) (p : Slot) : Nat := ((r.table n).proc p).priority

/-- Where iteration `n` starts. -/
def start (r : Rounds) (n : Nat) : Nat := startIndex (r.last n)

variable {r : Rounds} {n s t : Nat} {p q : Slot}

theorem last_succ (r : Rounds) (n : Nat) : r.last (n + 1) = (r.choice n).map Choice.last := rfl

/-! ## Round robin -/

/-- Policies 0 and 1. -/
def Robin (r : Rounds) : Prop := ∀ n, r.alg n = 0 ∨ r.alg n = 1

/-- **Nobody is overtaken**: between two iterations that select the slot `p`, every other slot that
was `RUNNABLE` at all of them was selected. -/
def NeverOvertakes (r : Rounds) : Prop :=
  ∀ s t, s < t → ∀ p q : Slot, q ≠ p → r.selected s = some p.val → r.selected t = some p.val →
    (∀ n, s ≤ n → n ≤ t → r.Runnable n q) → ∃ n, s < n ∧ n < t ∧ r.selected n = some q.val

/-- The place where iteration `n` starts; behind the last slot, nothing is found, and the next
iteration starts at the beginning. -/
def place (r : Rounds) (n : Nat) : Nat := r.start n % NPROC

theorem place_lt (r : Rounds) (n : Nat) : r.place n < NPROC := Nat.mod_lt _ (by decide)

theorem place_succ (h : r.last (n + 1) = some p.val) :
    r.place (n + 1) = if p.val = 0 then 0 else (p.val + 1) % NPROC := by
  rw [place, start, h, startIndex_some]
  split <;> rfl

/-- **The slot `q` keeps its turn** in iteration `n`: what is selected comes before it, and the
pointer is not moved past it. -/
structure KeepsTurn (r : Rounds) (n : Nat) (q : Slot) : Prop where
  first : ∀ p : Slot, r.selected n = some p.val → q ≠ p →
    ahead NPROC (r.place n) p < ahead NPROC (r.place n) q
  moved : r.selected n ≠ some q.val →
    ahead NPROC (r.place n) (r.place (n + 1)) ≤ ahead NPROC (r.place n) q

theorem KeepsTurn.of_selected (hp : r.selected n = some p.val) (hlast : r.last (n + 1) = some p.val)
    (h : q ≠ p → ahead NPROC (r.place n) p < ahead NPROC (r.place n) q) : r.KeepsTurn n q := by
  refine ⟨fun u hu => ?_, fun hne => ?_⟩
  · obtain rfl : p = u := Fin.ext (Option.some.inj (hp.symm.trans hu))
    exact h
  · have hlt := h fun heq => hne (heq ▸ hp)
    rw [place_succ hlast]
    have hplace := r.place_lt n
    have := q.isLt
    unfold ahead NPROC at *
    split_ifs at * <;> omega

theorem KeepsTurn.waits (hst : s ≤ t) (hq : ∀ n, s ≤ n → n ≤ t → r.KeepsTurn n q)
    (hnot : ∀ n, s ≤ n → n < t → r.selected n ≠ some q.val)
    (h : ahead NPROC (r.place s) q < ahead NPROC (r.place s) p) : r.selected t ≠ some p.val := by
  intro hp
  have hlt := ahead_lt_of_turns p.isLt q.isLt hst (fun n _ _ => r.place_lt n)
    (fun n hn hn' => (hq n hn hn'.le).moved (hnot n hn hn')) h
  have hne : q ≠ p := by
    rintro rfl
    exact hlt.false
  exact lt_asymm hlt ((hq t hst le_rfl).first p hp hne)

/-- **A slot that keeps its turn is not overtaken**, if the pointer goes to what is selected, and
slot 0 is not selected twice in a row. -/
theorem KeepsTurn.selected (hlast : ∀ n (p : Slot), r.selected n = some p.val →
    r.last (n + 1) = some p.val)
    (hst : s < t) (hq : ∀ n, s < n → n ≤ t → r.KeepsTurn n q) (hne : q ≠ p)
    (hs : r.selected s = some p.val) (ht : r.selected t = some p.val)
    (hzero : p = 0 → ∃ u : Slot, r.selected (s + 1) = some u.val ∧ u ≠ 0) :
    ∃ n, s < n ∧ n < t ∧ r.selected n = some q.val := by
  by_contra hno
  have hnot : ∀ n, s < n → n < t → r.selected n ≠ some q.val :=
    fun n hn hn' heq => hno ⟨n, hn, hn', heq⟩
  have hplace := place_succ (hlast s p hs)
  by_cases hp : p = 0
  · -- slot 0 goes behind everybody else when something else is selected
    obtain ⟨u, hu, hu0⟩ := hzero hp
    subst hp
    have h0 : (0 : Slot).val = 0 := rfl
    have hval : u.val ≠ 0 := fun h => hu0 (Fin.ext h)
    have hlt : s + 1 < t := by
      refine lt_of_le_of_ne hst ?_
      rintro rfl
      exact hval (Option.some.inj (hu.symm.trans ht))
    have huq : u.val < q.val := by
      have := (hq (s + 1) (by omega) hst).first u hu fun heq => hnot (s + 1) (by
        omega) hlt (heq ▸ hu)
      rwa [hplace, if_pos h0, ahead_zero, ahead_zero] at this
    refine waits (p := 0) (q := q) hlt (fun n hn => hq n (by omega)) (fun n hn => hnot n (by omega))
      ?_ ht
    rw [place_succ (hlast _ u hu), if_neg hval, Nat.mod_eq_of_lt (by omega)]
    unfold ahead
    split_ifs <;> omega
  · -- any other slot goes there when it is selected
    refine waits (p := p) (q := q) hst (fun n hn => hq n (by omega)) (fun n hn => hnot n (by omega))
      ?_ ht
    rw [hplace, if_neg fun h0 : p.val = 0 => hp (Fin.ext h0)]
    exact ahead_lt_last p.isLt q.isLt fun heq => hne (Fin.ext heq)

section

variable (hr : r.Robin)

include hr

/-- **An iteration of policies 0 and 1** selects the first `RUNNABLE` slot from where it starts
on. -/
theorem Robin.cases (n : Nat) :
    (r.selected n = none ∧ r.last (n + 1) = some 0 ∧ ∀ q, r.Runnable n q → q.val < r.start n) ∨
      ∃ p : Slot, r.selected n = some p.val ∧ r.last (n + 1) = some p.val ∧ r.Runnable n p ∧
        r.start n ≤ p.val ∧ ∀ q, r.Runnable n q → p.val ≤ q.val ∨ q.val < r.start n := by
  have hsel : r.selected n = (r.table n).robinScan (r.start n) ∧
      r.last (n + 1) = some ((r.selected n).getD 0) := by
    rw [last_succ, selected, choice]
    rcases hr n with h | h <;> rw [h] <;> exact ⟨rfl, rfl⟩
  rw [hsel.2, hsel.1]
  rcases hfind : (r.table n).robinScan (r.start n) with _ | i
  · refine .inl ⟨rfl, rfl, fun q hq => ?_⟩
    by_contra hge
    exact Kernel.robinScan_eq_none.1 hfind q (not_lt.1 hge) hq
  · obtain ⟨p, -, rfl⟩ := Option.map_eq_some_iff.1 hfind
    obtain ⟨hle, hrun, hbefore⟩ := Kernel.robinScan_eq_some.1 hfind
    refine .inr ⟨p, rfl, rfl, hrun, hle, fun q hq => ?_⟩
    by_contra h
    exact hbefore q (Fin.lt_def.2 (by omega)) (by omega) hq

theorem Robin.keepsTurn (hq : r.Runnable n q) : r.KeepsTurn n q := by
  rcases hr.cases n with ⟨hsel, hlast, hfree⟩ | ⟨p, hsel, hlast, -, hle, hmin⟩
  · refine ⟨fun p hp => by simp [hsel] at hp, fun _ => ?_⟩
    have hlt := hfree q hq
    have hstart : r.start n ≤ NPROC := startIndex_le _
    rw [place_succ (p := 0) hlast, place]
    unfold ahead NPROC at *
    split_ifs <;> omega
  · refine .of_selected hsel hlast fun hne => ?_
    have hval : q.val ≠ p.val := fun h => hne (Fin.ext h)
    have hpq := hmin q hq
    rw [place, Nat.mod_eq_of_lt (hle.trans_lt p.isLt)]
    unfold ahead
    split_ifs <;> omega

theorem Robin.of_selected (hp : r.selected n = some p.val) :
    r.last (n + 1) = some p.val ∧ r.Runnable n p ∧ r.start n ≤ p.val := by
  rcases hr.cases n with ⟨hsel, -⟩ | ⟨u, hsel, hlast, hrun, hle, -⟩
  · simp [hsel] at hp
  · obtain rfl : u = p := Fin.ext (Option.some.inj (hsel.symm.trans hp))
    exact ⟨hlast, hrun, hle⟩

theorem Robin.selects (hstart : r.start n = 0) (hq : r.Runnable n q) :
    ∃ p : Slot, r.selected n = some p.val ∧ r.Runnable n p ∧ p.val ≤ q.val := by
  rcases hr.cases n with ⟨-, -, hfree⟩ | ⟨p, hsel, -, hrun, -, hmin⟩
  · have := hfree q hq
    omega
  · have := hmin q hq
    exact ⟨p, hsel, hrun, by omega⟩

theorem Robin.start_zero (h : r.selected n = some (0 : Slot).val) : r.start (n + 1) = 0 := by
  rw [start, (hr.of_selected h).1]
  rfl

theorem Robin.selects_zero (hstart : r.start n = 0) (hrun : r.Runnable n 0) :
    r.selected n = some (0 : Slot).val := by
  obtain ⟨p, hp, -, hle⟩ := hr.selects hstart hrun
  rwa [Nat.le_zero.1 hle] at hp

end

/-- **Round robin.** Nobody is overtaken if and only if slot 0 is never found at the beginning of
the table in two iterations in a row while another slot is `RUNNABLE` in both. -/
theorem neverOvertakes_iff (r : Rounds) (hr : r.Robin) :
    r.NeverOvertakes ↔ ∀ n, r.start n = 0 → r.Runnable n 0 → r.Runnable (n + 1) 0 →
      ∀ q : Slot, q ≠ 0 → ¬ (r.Runnable n q ∧ r.Runnable (n + 1) q) := by
  constructor
  · rintro h n hstart hrun hrun' q hq ⟨hqn, hqn'⟩
    have hsel := hr.selects_zero hstart hrun
    obtain ⟨m, hm, hm', -⟩ := h n (n + 1) n.lt_succ_self 0 q hq hsel
      (hr.selects_zero (hr.start_zero hsel) hrun') fun m hm hm' => by
        rcases (show m = n ∨ m = n + 1 by omega) with rfl | rfl
        · exact hqn
        · exact hqn'
    omega
  · intro h s t hst p q hne hs ht hrun
    refine KeepsTurn.selected (fun n p hp => (hr.of_selected hp).1) hst
      (fun n hn hn' => hr.keepsTurn (hrun n hn.le hn')) hne hs ht ?_
    rintro rfl
    obtain ⟨-, hrun0, hle⟩ := hr.of_selected hs
    have hq := hrun (s + 1) (by omega) hst
    obtain ⟨u, hu, hurun, -⟩ := hr.selects (hr.start_zero hs) hq
    refine ⟨u, hu, ?_⟩
    rintro rfl
    exact h s (Nat.le_zero.1 hle) hrun0 hurun q hne ⟨hrun s le_rfl hst.le, hq⟩

/-- A table in which just the given slots are in use, `RUNNABLE` and of the given priorities. -/
def tableOf (l : List (Slot × Nat)) : Kernel :=
  { boot 1 with
    proc := fun p => (l.lookup p).elim {} fun n => { state := .runnable, priority := n } }

/-- Iterations that find the same slots `RUNNABLE` at all times. -/
def steadily (alg : Nat) (l : List (Slot × Nat)) : Rounds :=
  ⟨fun _ => tableOf l, fun _ => {}, fun _ => alg, fun _ => 0, none⟩

/-- Two processes behind slot 0 share the CPU under policy 0. -/
theorem neverOvertakes_two : (steadily 0 [(1, 3), (2, 3)]).NeverOvertakes := by
  refine (neverOvertakes_iff _ fun _ => .inl rfl).2 fun n _ h0 => ?_
  have hoff : ¬ ((tableOf [(1, 3), (2, 3)]).proc 0).state = .runnable := by decide
  exact absurd h0 hoff

/-- **Slot 0 overtakes**: with a process in slot 0 and one in slot 1, policy 0 selects slot 0 every
time. -/
theorem robin_overtakes : ∃ r : Rounds, r.Robin ∧ ¬ r.NeverOvertakes := by
  refine ⟨steadily 0 [(0, 3), (1, 3)], fun _ => .inl rfl, fun h => ?_⟩
  have hrun : ∀ n, (steadily 0 [(0, 3), (1, 3)]).Runnable n 1 := fun _ =>
    show ((tableOf [(0, 3), (1, 3)]).proc 1).state = .runnable by decide
  obtain ⟨n, hn, hn', -⟩ := h 0 1 one_pos 0 1 (by decide) (by decide +kernel) (by decide +kernel)
    fun n _ _ => hrun n
  omega

/-- The iterations that it may take from `n` on to get to the slot `q`. -/
def gap (r : Rounds) (n : Nat) (q : Slot) : Nat :=
  if r.start n ≤ q.val then q.val - r.start n else NPROC - r.start n + 1 + q.val

theorem Robin.gap_succ_lt (hr : r.Robin) (hq : r.Runnable n q) (h0 : ¬ r.Runnable n 0)
    (hne : r.selected n ≠ some q.val) : r.gap (n + 1) q < r.gap n q := by
  rcases hr.cases n with ⟨-, hlast, hfree⟩ | ⟨p, hsel, hlast, hrun, hle, hmin⟩
  · have hlt := hfree q hq
    have hnext : r.start (n + 1) = 0 := by
      rw [start, hlast]
      rfl
    unfold gap
    split_ifs <;> omega
  · have hpq := hmin q hq
    have hval : p.val ≠ q.val := fun h => hne (h ▸ hsel)
    have hp0 : p.val ≠ 0 := fun h => h0 (Fin.ext (a := p) (b := 0) h ▸ hrun)
    have hnext : r.start (n + 1) = p.val + 1 := by
      rw [start, hlast, startIndex_some, if_neg hp0]
    unfold gap
    split_ifs <;> omega

/-- **Bounded waiting.** Under policies 0 and 1, a slot that stays `RUNNABLE` is selected within
`NPROC` further iterations, whatever the others do, as long as slot 0 is not `RUNNABLE`. -/
theorem selected_within (r : Rounds) (hr : r.Robin) (s : Nat) (q : Slot)
    (hq : ∀ n, s ≤ n → n ≤ s + NPROC → r.Runnable n q) (h0 : ∀ n, s ≤ n → n ≤ s + NPROC →
      ¬ r.Runnable n 0) :
    ∃ n, s ≤ n ∧ n ≤ s + NPROC ∧ r.selected n = some q.val := by
  by_contra hno
  -- otherwise every iteration would come closer
  have hgap : ∀ i ≤ NPROC + 1, r.gap (s + i) q + i ≤ NPROC := by
    intro i hi
    induction i with
    | zero =>
      have hstart : r.start s ≤ NPROC := startIndex_le _
      have := q.isLt
      unfold gap
      split_ifs <;> omega
    | succ i ih =>
      have hlt := hr.gap_succ_lt (hq (s + i) (by omega) (by omega)) (h0 _ (by omega) (by omega))
        fun h => hno ⟨s + i, by omega, by omega, h⟩
      have := ih (by omega)
      show r.gap (s + i + 1) q + (i + 1) ≤ NPROC
      omega
  have := hgap (NPROC + 1) le_rfl
  omega

/-- The second of two processes behind slot 0 is selected in time. -/
theorem selected_within_two :
    ∃ n ≤ NPROC, (steadily 0 [(1, 3), (2, 3)]).selected n = some (2 : Slot).val := by
  have hrun : ((tableOf [(1, 3), (2, 3)]).proc 2).state = .runnable := by decide
  have hoff : ¬ ((tableOf [(1, 3), (2, 3)]).proc 0).state = .runnable := by decide
  obtain ⟨n, -, hn, hsel⟩ := selected_within (steadily 0 [(1, 3), (2, 3)]) (fun _ => .inl rfl) 0 2
    (fun _ _ _ => hrun) fun _ _ _ => hoff
  exact ⟨n, by omega, hsel⟩

/-! ## Equal priorities -/

/-- Policies 2 and 3, on tables in which every process has a priority. -/
def ByPriority (r : Rounds) : Prop := ∀ n, (r.alg n = 2 ∨ r.alg n = 3) ∧ (r.table n).Ranked

/-- **Processes of the priority `π` are selected in turn** between the iterations `s` and `t`: if
both select `p`, then every other process of this priority that was `RUNNABLE` at all of them was
selected in between. -/
def InTurn (r : Rounds) (π s t : Nat) : Prop :=
  ∀ p q : Slot, q ≠ p → r.selected s = some p.val → r.selected t = some p.val →
    (∀ n, s ≤ n → n ≤ t → r.priority n p = π) →
    (∀ n, s ≤ n → n ≤ t → r.Runnable n q ∧ r.priority n q = π) →
    ∃ n, s < n ∧ n < t ∧ r.selected n = some q.val

/-- **The condition on an iteration**: the pointer is not at the last slot; it is not at slot 0
while a process of the priority `π` is `RUNNABLE` there; and if more urgent processes are
`RUNNABLE`, then a most urgent one comes before every process of the priority `π` on the way of the
scan. -/
structure Steady (r : Rounds) (π n : Nat) : Prop where
  inside : r.last n ≠ some 63
  moved : r.last n = some 0 → ¬ (r.Runnable n 0 ∧ r.priority n 0 = π)
  before : ∀ x y, r.Runnable n x → r.priority n x = π → r.Runnable n y → r.priority n y < π →
    ∃ z, r.Runnable n z ∧ (∀ w, r.Runnable n w → r.priority n z ≤ r.priority n w) ∧
      ahead NPROC (r.start n) z < ahead NPROC (r.start n) x

section

variable (hr : r.ByPriority)

include hr

/-- **An iteration of policies 2 and 3** that starts inside the table. -/
theorem ByPriority.choice (hlast : r.last n ≠ some 63) (hq : r.Runnable n q) :
    ∃ p : Slot, r.selected n = some p.val ∧ r.last (n + 1) = some p.val ∧ r.Runnable n p ∧
      ∀ q, r.Runnable n q → r.priority n p < r.priority n q ∨
        r.priority n p = r.priority n q ∧ ahead NPROC (r.start n) p ≤ ahead NPROC
          (r.start n) q := by
  obtain ⟨hpol, hk⟩ := hr n
  obtain ⟨c, hc⟩ := Kernel.exists_choose (r.beyond n) (r.alg n) (r.rand n) hk hlast
  obtain ⟨hchosen, hleft⟩ := Kernel.choose_priority hpol hc
  rcases Kernel.priorityScan_first (r.beyond n) hk (startIndex_lt hlast) with ⟨-, hnone⟩ | ⟨p,
    hp, hrun, hmin⟩
  · exact absurd hq (hnone q)
  · rw [hp] at hchosen
    rw [hchosen] at hleft
    refine ⟨p, ?_, ?_, hrun, hmin⟩
    · rw [selected, Rounds.choice, hc]
      exact hchosen
    · rw [last_succ, Rounds.choice, hc]
      exact congrArg some hleft

theorem ByPriority.keepsTurn {π : Nat} (hs : r.Steady π n)
    (hq : r.Runnable n q ∧ r.priority n q = π) : r.KeepsTurn n q := by
  obtain ⟨p, hp, hlast, hrun, hmin⟩ := hr.choice hs.inside hq.1
  refine .of_selected hp hlast fun hne => ?_
  have hstart : r.start n < NPROC := startIndex_lt hs.inside
  rw [place, Nat.mod_eq_of_lt hstart]
  rcases hmin q hq.1 with hlt | ⟨-, hle⟩
  · -- a more urgent process was selected, and it comes before `q`
    obtain ⟨z, hz, hzmin, hzlt⟩ := hs.before q p hq.1 hq.2 hrun (hq.2 ▸ hlt)
    have hzp := hzmin p hrun
    rcases hmin z hz with h | ⟨-, hle⟩
    · omega
    · exact hle.trans_lt hzlt
  · refine lt_of_le_of_ne hle fun heq => hne (Fin.ext ?_)
    exact (ahead_inj hstart p.isLt q.isLt heq).symm

theorem ByPriority.last_of_selected (hp : r.selected n = some p.val) :
    r.last (n + 1) = some p.val := by
  obtain ⟨c, hc, hchosen⟩ := Option.bind_eq_some_iff.1 hp
  rw [last_succ, hc, Option.map_some, (Kernel.choose_priority (hr n).1 hc).2, hchosen]
  rfl

end

/-- **Equal priorities share the CPU in turn** as long as every iteration meets the condition. -/
theorem inTurn (r : Rounds) (hr : r.ByPriority) {π s t : Nat} (hst : s < t)
    (h : ∀ n, s < n → n ≤ t → r.Steady π n) : r.InTurn π s t := by
  intro p q hne hs ht hprio hq
  refine KeepsTurn.selected (fun n p => hr.last_of_selected) hst
    (fun n hn hn' => hr.keepsTurn (h n hn hn') (hq n hn.le hn')) hne hs ht ?_
  rintro rfl
  -- by the condition, slot 0 is not found again at once
  have hsteady := h (s + 1) (by omega) hst
  obtain ⟨u, hu, -, hrun, -⟩ := hr.choice hsteady.inside (hq (s + 1) (by omega) hst).1
  refine ⟨u, hu, ?_⟩
  rintro rfl
  exact hsteady.moved (hr.last_of_selected hs) ⟨hrun, hprio (s + 1) (by omega) hst⟩

/-- Two processes of priority 3 behind slot 0 take turns under policy 2. -/
theorem inTurn_two : (steadily 2 [(1, 3), (2, 3)]).InTurn 3 0 2 := by
  have hranked : (tableOf [(1, 3), (2, 3)]).Ranked := by
    unfold Kernel.Ranked
    decide
  have hequal : ∀ p, ((tableOf [(1, 3), (2, 3)]).proc p).state = .runnable →
      ((tableOf [(1, 3), (2, 3)]).proc p).priority = 3 := by decide
  refine inTurn _ (fun n => ⟨.inl rfl, hranked⟩) two_pos fun n hn hn' => ?_
  rcases (show n = 1 ∨ n = 2 by omega) with rfl | rfl
  · exact ⟨by decide +kernel, fun h0 => absurd h0 (by decide +kernel),
      fun _ y _ _ hy hlt => absurd (hequal y hy) hlt.ne⟩
  · exact ⟨by decide +kernel, fun h0 => absurd h0 (by decide +kernel),
      fun _ y _ _ hy hlt => absurd (hequal y hy) hlt.ne⟩

/-- The slots 1 and 3 are `RUNNABLE` at priority 3, and slot 5, if it is awake, at priority 1. -/
def threeSlots (awake : Bool) : Kernel :=
    tableOf (if awake then [(1, 3), (3, 3), (5, 1)] else [(1, 3), (3, 3)])

/-- Slot 5 is awake at iteration 1 only. -/
def interrupted : Rounds := ⟨fun n => threeSlots (n == 1), fun _ => {}, fun _ => 2,
    fun _ => 0, none⟩

/-- **A more urgent process moves the pointer**: slot 1 is selected, then slot 5, and the next
iteration goes around to slot 1 again, while slot 3 was `RUNNABLE` at the same priority all the
time. -/
theorem urgent_overtakes : interrupted.ByPriority ∧ ¬ interrupted.InTurn 3 0 2 := by
  have hranked : ∀ awake, (threeSlots awake).Ranked := by
    unfold Kernel.Ranked
    decide
  have hready : ∀ awake, ∀ p : Slot, p = 1 ∨ p = 3 →
      ((threeSlots awake).proc p).state = .runnable ∧ ((threeSlots awake).proc p).priority = 3 := by
    decide
  refine ⟨fun n => ⟨.inl rfl, hranked (n == 1)⟩, fun h => ?_⟩
  obtain ⟨n, hn, hn', hsel⟩ := h 1 3 (by decide) (by decide +kernel) (by decide +kernel)
    (fun n _ _ => (hready (n == 1) 1 (.inl rfl)).2) fun n _ _ => hready (n == 1) 3 (.inr rfl)
  obtain rfl : n = 1 := by omega
  exact absurd hsel (by decide +kernel)

end Rounds

end Xv6
