import Xv6.Inodes.Coherence

/-! # Unlinked inodes are freed

`iput` reads `ref` under `icache.lock` to see whether it drops the last reference, but decrements it
only after it has released both locks. If every `iput` reads `ref` when no other one of the same
inode is between the two, an inode without links is freed with its last reference; if not, two
`iput`s may each leave it to the other.

* **`unlinked_freed`** — in such runs no inode without links is lost;
* **`unlinked_lost`** — two overlapping `iput`s lose one. -/

namespace Xv6.Inodes

open Foundation Function

/-- The inode is allocated and has no links. -/
def Dinode.Unlinked (d : Dinode) : Prop := d.type ≠ 0 ∧ d.nlink = 0

instance (d : Dinode) : Decidable d.Unlinked := inferInstanceAs (Decidable (_ ∧ _))

/-- An `iput` that has not yet decided to leave the inode as it is, nor freed it. -/
def Point.pending : Point → Bool
  | .iputWait | .iputHave | .iputRef | .iputTrunc | .iputTruncated | .iputFree | .iputUpdate => true
  | _ => false

/-- The event allocates an inode. -/
def Event.isAlloc {P : Type*} : Event P → Bool
  | .ialloc _ _ => true
  | _ => false

/-- What an entry in use says about an inode without links: its copy is in memory, and the inode is
free on the disk when `iput` has freed it. -/
def Spent (pt : Point) (valid : Bool) (_ dip : Dinode) : Prop :=
  (valid = false → ¬ dip.Unlinked) ∧ (pt = .iputInvalid → dip.type = 0)

section

variable {P : Type*} [DecidableEq P] {p : P} {a : Act} {v v' : View P}

theorem View.Move.spent (h : v.Move p a v') (hlock : v.lock = some p ↔ v.point.locked = true)
    {o : P → Point} (hv : Holds (v.holder p o) v.ip.valid v.ip.data v.dip)
    (hs : Spent (v.holder p o) v.ip.valid v.ip.data v.dip) :
    Spent (v'.holder p o) v'.ip.valid v'.ip.data v'.dip := by
  obtain ⟨pt, l, n, ip, dip⟩ := v
  cases h <;> obtain rfl : pt = _ := ‹_› <;> cases l <;>
    simp_all [View.holder, holderOf, Holds, Spent, Point.locked, Dinode.Unlinked]

end

namespace Icache

variable {P : Type*} [Fintype P] {s s' : Icache P} {e : Entry}

/-- **The condition on a step**: no inode is allocated, and an `iput` reads `ref` only when no other
one of the same entry has still to decrement it. -/
def Spares (s : Icache P) : Event P → Prop
  | .ialloc _ _ => False
  | .act p e .run => s.point (p, e) = .iputRef → ∀ q, s.point (q, e) ≠ .iputDrop
  | _ => True

instance (s : Icache P) : (ev : Event P) → Decidable (s.Spares ev)
  | .iget _ | .idup _ | .act _ _ .ilock | .act _ _ (.modify _) | .act _ _ .iunlock
  | .act _ _ .iput => isTrue trivial
  | .ialloc _ _ => isFalse id
  | .act _ _ .run => inferInstanceAs (Decidable (_ → _))

/-- Some process is to look at the inode of the entry again: it has a live reference, or its `iput`
has not decided yet. -/
def watched (s : Icache P) (e : Entry) : Prop :=
  0 < s.live e ∨ ∃ p, (s.point (p, e)).pending = true

/-- **The invariant** of runs under the condition. -/
structure Kept (s : Icache P) : Prop where
  ok : s.Ok
  spent : ∀ e, 0 < (s.entry e).ref →
    Spent (s.holder e) (s.entry e).valid (s.entry e).data (s.disk (s.entry e).ino)
  /-- An inode without links is in the cache, and watched. -/
  found : ∀ ino, (s.disk ino).Unlinked → ∃ e, 0 < (s.entry e).ref ∧ (s.entry e).ino = ino ∧
    s.watched e

theorem Ok.ref_pos_of_watched (h : s.Ok) (hw : s.watched e) : 0 < (s.entry e).ref := by
  have href := h.refs e
  unfold outstanding at href
  rcases hw with hlive | ⟨p, hp⟩
  · omega
  · have hput : (s.point (p, e)).isPut = true := by
      cases hpt : s.point (p, e) <;> simp_all [Point.pending, Point.isPut, Point.isUser]
    have : 0 < references s.putting e := references_users_pos hput
    omega

theorem Kept.handOut (h : s.Kept) {ip : Inode} (hok : (s.handOut e ip).Ok)
    (hspent : Spent (s.holder e) ip.valid ip.data (s.disk ip.ino))
    (hino : 0 < (s.entry e).ref → ip.ino = (s.entry e).ino) : (s.handOut e ip).Kept := by
  refine ⟨hok, fun e' hpos => ?_, fun ino hun => ?_⟩
  · show Spent (s.holder e') _ _ _
    by_cases he : e' = e
    · subst he
      simpa using hspent
    · simp only [handOut_entry, update_of_ne he] at hpos ⊢
      exact h.spent e' hpos
  · obtain ⟨e', hpos', hino', hw⟩ := h.found ino hun
    have hw' : (s.handOut e ip).watched e' := by
      rcases hw with hlive | hq
      · refine Or.inl ?_
        by_cases he : e' = e
        · simp [he]
        · simpa [he] using hlive
      · exact Or.inr hq
    refine ⟨e', hok.ref_pos_of_watched hw', ?_, hw'⟩
    by_cases he : e' = e
    · subst he
      simpa [hino hpos'] using hino'
    · simpa [he] using hino'

theorem Kept.iget {ino : Ino} (h : s.Kept) (hget : s.iget ino = some s') : s'.Kept := by
  have hok := h.ok.iget hget
  unfold Icache.iget at hget
  split at hget
  case h_1 e he =>
    cases hget
    have hin : 0 < (s.entry e).ref ∧ (s.entry e).ino = ino := by simpa using List.find?_some he
    exact h.handOut hok (h.spent e hin.1) fun _ => rfl
  case h_2 hnone =>
    split at hget
    · cases hget
    · rename_i e he
      cases hget
      have hfree : (s.entry e).ref = 0 := by simpa using List.find?_some he
      obtain ⟨-, hlock, -⟩ := h.ok.free hfree
      refine h.handOut hok ⟨fun _ hun => ?_, ?_⟩ fun hpos => by omega
      -- an inode without links would be in the cache
      · obtain ⟨e', hpos', hino', -⟩ := h.found ino hun
        have hmem := List.find?_eq_none.1 hnone e' (List.mem_finRange e')
        simp only [decide_eq_true_eq, not_and] at hmem
        exact hmem hpos' hino'
      · rw [holder, Foundation.holder, hlock]
        simp

variable [DecidableEq P]

/-- If the entry has more than one reference while `p` drops one, another one is live or being
dropped by another process. -/
theorem Ok.exists_other (h : s.Ok) {p : P} (hput : (s.point (p, e)).isPut = true)
    (href : 1 < (s.entry e).ref) :
    0 < s.live e ∨ ∃ q, q ≠ p ∧ (s.point (q, e)).isPut = true := by
  by_cases hlive : 0 < s.live e
  · exact Or.inl hlive
  · right
    have href' := h.refs e
    unfold outstanding at href'
    have hself : s.putting (p, e) = some e := if_pos hput
    have hclear := references_clear hself e
    rw [if_pos rfl] at hclear
    have hne : references (update s.putting (p, e) none) e ≠ 0 := by omega
    rw [ne_eq, references_eq_zero] at hne
    push Not at hne
    obtain ⟨⟨q, e'⟩, hq⟩ := hne
    have hqp : (q, e') ≠ (p, e) := by
      rintro heq
      simp [heq] at hq
    rw [update_of_ne hqp] at hq
    unfold putting users at hq
    split at hq
    · rename_i hqput
      obtain rfl : e' = e := Option.some.inj hq
      exact ⟨q, fun heq => hqp (by rw [heq]), hqput⟩
    · cases hq

theorem Kept.watched_of_other (h : s.Kept) {p : P} {v : View P} (hpos : 0 < (s.entry e).ref)
    (hun : (s.disk (s.entry e).ino).Unlinked) (hlive : ¬ 0 < s.live e)
    (hself : (s.point (p, e)).pending = false) : (s.store p e v).watched e := by
  obtain ⟨e', hpos', hino, hw⟩ := h.found _ hun
  obtain rfl := h.ok.unique e' e hpos' hpos hino
  rcases hw with hlive' | ⟨q, hq⟩
  · exact absurd hlive' hlive
  · have hne : (q, e') ≠ (p, e') := by
      rintro heq
      obtain ⟨rfl, -⟩ := Prod.mk.inj heq
      simp [hself] at hq
    exact Or.inr ⟨q, by rwa [store_point, update_of_ne hne]⟩

/-- **An action leaves an inode without links watched.** -/
theorem Kept.watched_act (h : s.Kept) {p : P} {a : Act} {v : View P}
    (hspares : s.Spares (.act p e a)) (hmove : (s.view p e).Move p a v) (hun : v.dip.Unlinked) :
    (s.store p e v).watched e := by
  have hpos := h.ok.ref_pos hmove
  have hdata := h.ok.data e hpos
  have hspent := h.spent e hpos
  rw [holder, holder_eq_holderOf p] at hdata hspent
  by_cases hlive : 0 < v.live
  · exact Or.inl (by simpa using hlive)
  by_cases hpend : v.point.pending = true
  · exact Or.inr ⟨p, by simpa using hpend⟩
  -- who holds the lock is where it says
  have hlocked : (s.point (p, e)).locked = true →
      holderOf .idle (s.lock e) p (s.point (p, e)) (fun q => s.point (q, e)) = s.point (p, e) := by
    intro hl
    rw [(h.ok.locks p e).2 hl, holderOf_self]
  have huser : ¬ 0 < s.live e → (s.point (p, e)).isUser = false := by
    intro hnot
    rw [← Bool.not_eq_true]
    exact fun hu => hnot (h.ok.used p e hu)
  cases hmove with
  | ilock hpt hl => exact absurd hl hlive
  | modify hpt | iunlock hpt | ilockWait hpt | ilockValid hpt | ilockCopy hpt | ilockRead hpt
  | iupdate hpt =>
    have hpt : s.point (p, e) = _ := hpt
    have := huser hlive
    rw [hpt] at this
    cases this
  | iput | iputWait | iputNoLinks | iputLast | iputTrunc | iputTruncated | iputFree =>
    exact absurd rfl hpend
  | iputUpdate hpt =>
    have hpt : s.point (p, e) = _ := hpt
    rw [hlocked (by rw [hpt]; rfl), hpt] at hdata
    exact absurd hdata.2.1 hun.1
  | iputInvalid hpt =>
    have hpt : s.point (p, e) = _ := hpt
    rw [hlocked (by rw [hpt]; rfl)] at hspent
    exact absurd (hspent.2 hpt) hun.1
  | iputLinks hpt hlinks =>
    -- the copy is that of the disk, which says that there are no links
    have hpt : s.point (p, e) = _ := hpt
    rw [hlocked (by rw [hpt]; rfl), hpt] at hdata
    cases hvalid : (s.entry e).valid with
    | false => exact absurd hun (hspent.1 hvalid)
    | true =>
      have hnlink : (s.entry e).data.nlink = 0 := by
        rw [(hdata hvalid).1]
        exact hun.2
      exact absurd ⟨hvalid, hnlink⟩ hlinks
  | iputShared hpt href =>
    have hpt : s.point (p, e) = _ := hpt
    have href : (s.entry e).ref ≠ 1 := href
    rcases h.ok.exists_other (by rw [hpt]; rfl) (by omega) with hl | ⟨q, hqp, hq⟩
    · exact absurd hl hlive
    -- `q` has not released the lock, or is past its decrement
    · have hqlock : (s.point (q, e)).locked = false := by
        rw [← Bool.not_eq_true, ← h.ok.locks, (h.ok.locks p e).2 (by rw [hpt]; rfl)]
        exact fun heq => hqp (Option.some.inj heq).symm
      have hdrop : s.point (q, e) ≠ .iputDrop := hspares hpt q
      have hqpend : (s.point (q, e)).pending = true := by
        cases hqpt : s.point (q, e) <;>
          simp_all [Point.isPut, Point.isUser, Point.locked, Point.pending]
      have hne : (q, e) ≠ (p, e) := fun heq => hqp (Prod.mk.inj heq).1
      exact Or.inr ⟨q, by rwa [store_point, update_of_ne hne]⟩
  | iputRelease hpt | iputDrop hpt =>
    have hpt : s.point (p, e) = _ := hpt
    exact h.watched_of_other hpos hun hlive (by rw [hpt]; rfl)

theorem Kept.act (h : s.Kept) {p : P} {a : Act} {v : View P} (hmay : a = .iput → s.mayPut e)
    (hspares : s.Spares (.act p e a)) (hmove : (s.view p e).Move p a v) : (s.store p e v).Kept := by
  have hok := h.ok.act hmay hmove
  have hpos := h.ok.ref_pos hmove
  have hino : v.ip.ino = (s.entry e).ino := (hmove.keeps (h.ok.locks p e)).ino
  refine ⟨hok, ?_, fun ino hun => ?_⟩
  · refine h.ok.each_store hpos hino (fun hs => ?_) h.spent
    refine hmove.spent (h.ok.locks p e) ?_ hs
    have hdata := h.ok.data e hpos
    rwa [holder, holder_eq_holderOf p] at hdata
  · by_cases hi : ino = (s.entry e).ino
    · subst hi
      have hun : v.dip.Unlinked := by simpa using hun
      have hw := h.watched_act hspares hmove hun
      exact ⟨e, hok.ref_pos_of_watched hw, by simpa using hino, hw⟩
    · -- the entry of another inode is another one
      rw [store_disk, update_of_ne hi] at hun
      obtain ⟨e', hpos', hino', hw⟩ := h.found ino hun
      have he : e' ≠ e := by
        rintro rfl
        exact hi hino'.symm
      refine ⟨e', by simpa [he] using hpos', by simpa [he] using hino', ?_⟩
      rcases hw with hlive | ⟨q, hq⟩
      · exact Or.inl (by simpa [he] using hlive)
      · have hne : (q, e') ≠ (p, e) := fun heq => he (Prod.mk.inj heq).2
        exact Or.inr ⟨q, by rwa [store_point, update_of_ne hne]⟩

/-- **Every step** under the condition keeps the invariant. -/
theorem Kept.step {ev : Event P} (h : s.Kept) (hspares : s.Spares ev)
    (hstep : s.step ev = some s') : s'.Kept := by
  cases ev with
  | iget ino => exact h.iget hstep
  | idup e =>
    have hok := h.ok.step hstep
    simp only [Icache.step, Option.ite_none_right_eq_some, Option.some.injEq] at hstep
    obtain ⟨hlive, rfl⟩ := hstep
    exact h.handOut hok (h.spent e (h.ok.ref_pos_of_watched (Or.inl hlive))) fun _ => rfl
  | ialloc => exact hspares.elim
  | act p e a =>
    simp only [Icache.step, Option.ite_none_right_eq_some, Option.map_eq_some_iff] at hstep
    obtain ⟨hmay, v, hnext, rfl⟩ := hstep
    exact h.act hmay hspares (View.next_move hnext)

/-- **No inode is lost**: while no `iput` is in progress, an inode that is allocated and has no
links is still referred to in memory. -/
def NoneLost (s : Icache P) : Prop :=
  (∀ x, (s.point x).isPut = false) →
    ∀ ino, (s.disk ino).Unlinked → ∃ e, 0 < (s.entry e).ref ∧ (s.entry e).ino = ino

/-- **Inodes without links are freed** with their last reference, if `iput` reads `ref` only when no
other one has still to decrement it. -/
theorem unlinked_freed {disk : Ino → Dinode} (hdisk : ∀ ino, ¬ (disk ino).Unlinked)
    (h : Run step Spares (boot disk) s) : s.NoneLost := by
  have hkept : s.Kept := by
    refine h.invariant Kept ⟨boot_ok disk, ?_, fun ino hun => ?_⟩ fun _ _ _ hk hg hs =>
      hk.step hg hs
    · exact fun e hpos => absurd hpos (lt_irrefl _)
    · exact absurd hun (hdisk ino)
  intro _ ino hun
  obtain ⟨e, hpos, hino, -⟩ := hkept.found ino hun
  exact ⟨e, hpos, hino⟩

/-- Two references to an inode are handed out, and the last link is removed. -/
def unlinkShared : List (Event (Fin 2)) :=
  [.iget (1, 1), .idup 0, .act 0 0 .ilock, .act 0 0 .run, .act 0 0 .run, .act 0 0 .run,
    .act 0 0 (.modify { type := 2, nlink := 0 }), .act 0 0 .run, .act 0 0 .iunlock]

/-- The process puts its reference, up to the decrement. -/
def putUndecremented (p : Fin 2) : List (Event (Fin 2)) :=
  [.act p 0 .iput, .act p 0 .run, .act p 0 .run, .act p 0 .run, .act p 0 .run]

theorem not_unlinked_fileDisk (ino : Ino) : ¬ (fileDisk ino).Unlinked := by
  simp [fileDisk, Dinode.Unlinked]

/-- One process puts its reference after the other, and the second one frees the inode. -/
theorem unlinked_freed_in_turn : ∃ s : Icache (Fin 2), Run step Spares (boot fileDisk) s ∧
    (∀ x, (s.point x).isPut = false) ∧ (s.disk (1, 1)).type = 0 ∧ (s.entry 0).ref = 0 ∧
      s.NoneLost := by
  obtain ⟨s, hrun, hs⟩ := exists_run_of_runs step Spares (boot fileDisk)
    (unlinkShared ++ putUndecremented 0 ++ [.act 0 0 .run] ++ putUndecremented 1 ++
      List.replicate 6 (.act 1 0 .run))
    (fun s => (∀ x, (s.point x).isPut = false) ∧ (s.disk (1, 1)).type = 0 ∧ (s.entry 0).ref = 0)
    (by decide +kernel)
  simp only [decide_eq_true_eq] at hs
  exact ⟨s, hrun, hs.1, hs.2.1, hs.2.2, unlinked_freed not_unlinked_fileDisk hrun⟩

/-- **Two `iput`s lose an inode**: each reads `ref` as 2 before the other one decrements it, and no
inode is ever allocated. -/
theorem unlinked_lost : ∃ s : Icache (Fin 2),
    Run step (fun _ ev => ev.isAlloc = false) (boot fileDisk) s ∧ ¬ s.NoneLost := by
  obtain ⟨s, hrun, hs⟩ := exists_run_of_runs step (fun _ ev => ev.isAlloc = false) (boot fileDisk)
    (unlinkShared ++ putUndecremented 0 ++ putUndecremented 1 ++ [.act 0 0 .run, .act 1 0 .run])
    (fun s => (∀ x, (s.point x).isPut = false) ∧ (s.disk (1, 1)).Unlinked ∧
      ∀ e, ¬ (0 < (s.entry e).ref ∧ (s.entry e).ino = (1, 1)))
    (by decide +kernel)
  simp only [decide_eq_true_eq] at hs
  obtain ⟨hidle, hun, hnone⟩ := hs
  refine ⟨s, hrun, fun hkept => ?_⟩
  obtain ⟨e, he⟩ := hkept hidle (1, 1) hun
  exact hnone e he

end Icache

end Xv6.Inodes
