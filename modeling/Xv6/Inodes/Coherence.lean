import Xv6.Inodes.Cache

/-! # The inode cache agrees with the disk

What an entry holds depends on where the holder of its lock is (`Holds`); as an inode has one entry
in use at most, nobody but that holder writes it on the disk, and `ialloc` only takes inodes that no
entry has a valid copy of.

* **`inodes_coherent`** — one entry in use for an inode, `ref` counts the references handed out and
  not yet put, `iget` recycles only entries that are not in use, and an entry in use with a free
  lock and a valid copy equals the inode on the disk;
* **`free_entry_stale`** — an entry that is not in use may keep `valid` and an old copy, since
  `iput` does not clear `valid` when `ref` falls to 0;
* **`entries_coherent`** — all entries agree with the disk as long as it is clear by then. -/

namespace Xv6.Inodes

open Foundation Function

section

variable {P : Type*}

/-- **What an action can do**, case by case. -/
inductive View.Move (p : P) (v : View P) : Act → View P → Prop
  | ilock (hpt : v.point = .idle) (hlive : 0 < v.live) :
      v.Move p .ilock { v with point := .ilockWait }
  | modify {d : Dinode} (hpt : v.point = .inside) (hd : d.type ≠ 0) :
      v.Move p (.modify d) { v with ip := { v.ip with data := d }, point := .dirty }
  | iunlock (hpt : v.point = .inside) : v.Move p .iunlock { v with lock := none, point := .idle }
  | iput (hpt : v.point = .idle) (hlive : 0 < v.live) :
      v.Move p .iput { v with live := v.live - 1, point := .iputWait }
  | ilockWait (hpt : v.point = .ilockWait) (hlock : v.lock = none) :
      v.Move p .run { v with lock := some p, point := .ilockHave }
  | ilockValid (hpt : v.point = .ilockHave) (hvalid : v.ip.valid = true) :
      v.Move p .run { v with point := .inside }
  | ilockCopy (hpt : v.point = .ilockHave) (hvalid : v.ip.valid = false) :
      v.Move p .run { v with ip := { v.ip with data := v.dip }, point := .ilockRead }
  | ilockRead (hpt : v.point = .ilockRead) (htype : v.ip.data.type ≠ 0) :
      v.Move p .run { v with ip := { v.ip with valid := true }, point := .inside }
  | iupdate (hpt : v.point = .dirty) : v.Move p .run { v with dip := v.ip.data, point := .inside }
  | iputWait (hpt : v.point = .iputWait) (hlock : v.lock = none) :
      v.Move p .run { v with lock := some p, point := .iputHave }
  | iputNoLinks (hpt : v.point = .iputHave) (hvalid : v.ip.valid = true)
      (hnlink : v.ip.data.nlink = 0) : v.Move p .run { v with point := .iputRef }
  | iputLinks (hpt : v.point = .iputHave) (hlinks : ¬ (v.ip.valid = true ∧ v.ip.data.nlink = 0)) :
      v.Move p .run { v with point := .iputRelease }
  | iputLast (hpt : v.point = .iputRef) (href : v.ip.ref = 1) :
      v.Move p .run { v with point := .iputTrunc }
  | iputShared (hpt : v.point = .iputRef) (href : v.ip.ref ≠ 1) :
      v.Move p .run { v with point := .iputRelease }
  | iputTrunc (hpt : v.point = .iputTrunc) :
      v.Move p .run { v with
        ip := { v.ip with data := { v.ip.data with size := 0, addrs := fun _ => 0 } }
        point := .iputTruncated }
  | iputTruncated (hpt : v.point = .iputTruncated) :
      v.Move p .run { v with dip := v.ip.data, point := .iputFree }
  | iputFree (hpt : v.point = .iputFree) :
      v.Move p .run
        { v with ip := { v.ip with data := { v.ip.data with type := 0 } }, point := .iputUpdate }
  | iputUpdate (hpt : v.point = .iputUpdate) :
      v.Move p .run { v with dip := v.ip.data, point := .iputInvalid }
  | iputInvalid (hpt : v.point = .iputInvalid) :
      v.Move p .run { v with ip := { v.ip with valid := false }, point := .iputRelease }
  | iputRelease (hpt : v.point = .iputRelease) :
      v.Move p .run { v with lock := none, point := .iputDrop }
  | iputDrop (hpt : v.point = .iputDrop) :
      v.Move p .run { v with ip := { v.ip with ref := v.ip.ref - 1 }, point := .idle }

variable {p : P} {a : Act} {v v' : View P}

theorem View.run_move (h : v.run p = some v') : v.Move p .run v' := by
  unfold View.run at h
  split at h
  case h_1 | h_2 => cases h
  case h_3 hpt =>
    split at h
    · cases h
      exact .ilockWait hpt ‹_›
    · cases h
  case h_4 hpt =>
    split at h
    · cases h
      exact .ilockValid hpt ‹_›
    · cases h
      exact .ilockCopy hpt (by simpa using ‹¬ v.ip.valid = true›)
  case h_5 hpt =>
    split at h
    · cases h
    · cases h
      exact .ilockRead hpt ‹_›
  case h_6 hpt =>
    cases h
    exact .iupdate hpt
  case h_7 hpt =>
    split at h
    · cases h
      exact .iputWait hpt ‹_›
    · cases h
  case h_8 hpt =>
    cases h
    split
    · exact .iputNoLinks hpt (by tauto) (by tauto)
    · exact .iputLinks hpt ‹_›
  case h_9 hpt =>
    cases h
    split
    · exact .iputLast hpt ‹_›
    · exact .iputShared hpt ‹_›
  case h_10 hpt =>
    cases h
    exact .iputTrunc hpt
  case h_11 hpt =>
    cases h
    exact .iputTruncated hpt
  case h_12 hpt =>
    cases h
    exact .iputFree hpt
  case h_13 hpt =>
    cases h
    exact .iputUpdate hpt
  case h_14 hpt =>
    cases h
    exact .iputInvalid hpt
  case h_15 hpt =>
    cases h
    exact .iputRelease hpt
  case h_16 hpt =>
    cases h
    exact .iputDrop hpt

/-! ## The lock and the references -/

/-- The reference that a process at this point is dropping. -/
def Point.put (pt : Point) : Int := pt.isPut.toNat

/-- What every action keeps to. -/
structure View.Keeps (p : P) (a : Act) (v v' : View P) : Prop where
  ino : v'.ip.ino = v.ip.ino
  ref_le : v'.ip.ref ≤ v.ip.ref
  refs : v'.ip.ref - v'.live - v'.point.put = v.ip.ref - v.live - v.point.put
  live : v'.live = v.live ∨ a = .iput ∧ v'.live + 1 = v.live ∧ v'.point.isUser = false
  lock : v'.lock = some p ↔ v'.point.locked = true
  other : ∀ q, p ≠ q → (v'.lock = some q ↔ v.lock = some q)
  user : v'.point.isUser = true → v.point.isUser = true ∨ 0 < v.live
  busy : v.point.isUser = true ∨ v.point.isPut = true ∨ 0 < v.live

theorem View.Move.keeps (h : v.Move p a v') (hlock : v.lock = some p ↔ v.point.locked = true) :
    v.Keeps p a v' := by
  -- what the point says about the lock, and the arithmetic of the counts, settle every case
  obtain ⟨pt, l, n, ip, dip⟩ := v
  cases h <;> obtain rfl : pt = _ := ‹_› <;> constructor <;>
    simp_all [Point.put, Point.isPut, Point.isUser, Point.locked] <;> omega

/-! ## The copy in memory -/

/-- The copy, if there is one, is that of the inode on the disk. -/
def Agrees (valid : Bool) (data dip : Dinode) : Prop := valid = true → data = dip ∧ dip.type ≠ 0

/-- **What an entry in use holds** while the holder of its lock is at a point, `idle` if the lock is
free. -/
def Holds : Point → (valid : Bool) → (data dip : Dinode) → Prop
  | .ilockRead, valid, data, dip => valid = false ∧ (data.type ≠ 0 → data = dip)
  | .inside, valid, data, dip | .iputRef, valid, data, dip | .iputTrunc, valid, data, dip
  | .iputFree, valid, data, dip => valid = true ∧ data = dip ∧ dip.type ≠ 0
  | .dirty, valid, data, dip | .iputTruncated, valid, data, dip =>
    valid = true ∧ data.type ≠ 0 ∧ dip.type ≠ 0
  | .iputUpdate, valid, data, dip => valid = true ∧ data.type = 0 ∧ dip.type ≠ 0
  -- the inode is free on the disk, and may be allocated again already
  | .iputInvalid, _, _, _ => True
  | _, valid, data, dip => Agrees valid data dip

theorem Holds.of_free {pt : Point} {valid : Bool} {data dip dip' : Dinode}
    (h : Holds pt valid data dip) (hfree : dip.type = 0) : Holds pt valid data dip' := by
  cases pt with
  | ilockRead =>
    -- a copy that was read as free is never used
    refine ⟨h.1, fun htype => absurd (h.2 htype) ?_⟩
    rintro rfl
    exact htype hfree
  | _ => simp_all [Holds, Agrees]

/-! ## The invariant -/

namespace Icache

/-- The references whose `iput` is in progress. -/
def putting (s : Icache P) : P × Entry → Option Entry := users Point.isPut s.point

/-- Where the holder of the lock of an entry is. -/
def holder (s : Icache P) (e : Entry) : Point := Foundation.holder .idle s.lock s.point e

section

variable {s s' : Icache P} {e : Entry} {ino : Ino}

/-- **What `iget` can do**: hand out a reference to the entry in use for the inode, or to a free
one. -/
theorem iget_cases (h : s.iget ino = some s') :
    (∃ e, 0 < (s.entry e).ref ∧ (s.entry e).ino = ino ∧
      s' = s.handOut e { s.entry e with ref := (s.entry e).ref + 1 }) ∨
    ∃ e, (s.entry e).ref = 0 ∧ (∀ e', 0 < (s.entry e').ref → (s.entry e').ino ≠ ino) ∧
      s' = s.handOut e { s.entry e with ino := ino, ref := 1, valid := false } := by
  unfold Icache.iget at h
  split at h
  case h_1 e he =>
    cases h
    have hin : 0 < (s.entry e).ref ∧ (s.entry e).ino = ino := by simpa using List.find?_some he
    exact .inl ⟨e, hin.1, hin.2, rfl⟩
  case h_2 hnone =>
    split at h
    · cases h
    · rename_i e he
      cases h
      refine .inr ⟨e, by simpa using List.find?_some he, fun e' => ?_, rfl⟩
      simpa using List.find?_eq_none.1 hnone e' (List.mem_finRange e')

theorem iget_kept (hget : s.iget ino = some s') (hpos : 0 < (s.entry e).ref) :
    s'.entry e = s.entry e ∨
      (s.entry e).ino = ino ∧ s'.entry e = { s.entry e with ref := (s.entry e).ref + 1 } := by
  rcases iget_cases hget with ⟨e', -, hino, rfl⟩ | ⟨e', hfree, -, rfl⟩
  · by_cases he : e = e'
    · subst he
      exact .inr ⟨hino, by simp⟩
    · exact .inl (by simp [he])
  · have he : e ≠ e' := by
      rintro rfl
      omega
    exact .inl (by simp [he])

/-- No entry has a copy while it is free. -/
def Clear (s : Icache P) : Prop := ∀ e, (s.entry e).ref = 0 → (s.entry e).valid = false

theorem Clear.handOut (h : s.Clear) {ip : Inode} (hip : 0 < ip.ref) : (s.handOut e ip).Clear := by
  intro e' hzero
  by_cases he : e' = e
  · rw [he, handOut_entry, update_self] at hzero
    omega
  · simpa [he] using h e' (by simpa [he] using hzero)

end

variable [Fintype P]

/-- **The references handed out and not yet put**: those that are live and those that an `iput` in
progress is to drop. -/
def outstanding (s : Icache P) (e : Entry) : Nat := s.live e + references s.putting e

/-- **The invariant.** -/
structure Ok (s : Icache P) : Prop where
  unique : ∀ e e', 0 < (s.entry e).ref → 0 < (s.entry e').ref →
    (s.entry e).ino = (s.entry e').ino → e = e'
  refs : ∀ e, (s.entry e).ref = s.outstanding e
  locks : ∀ p e, s.lock e = some p ↔ (s.point (p, e)).locked = true
  used : ∀ p e, (s.point (p, e)).isUser = true → 0 < s.live e
  data : ∀ e, 0 < (s.entry e).ref →
    Holds (s.holder e) (s.entry e).valid (s.entry e).data (s.disk (s.entry e).ino)

variable {s s' : Icache P} {e : Entry}

theorem Ok.free (h : s.Ok) (hfree : (s.entry e).ref = 0) :
    s.live e = 0 ∧ s.lock e = none ∧ ∀ p, s.point (p, e) = .idle := by
  have href := h.refs e
  unfold outstanding at href
  have hlive : s.live e = 0 := by omega
  have hput : references s.putting e = 0 := by omega
  have hidle : ∀ p, s.point (p, e) = .idle := by
    intro p
    have hnot := references_users_eq_zero hput p
    have huser : ¬ (s.point (p, e)).isUser = true := fun hu => by
      have := h.used p e hu
      omega
    cases hpt : s.point (p, e) <;> simp_all [Point.isPut, Point.isUser]
  refine ⟨hlive, ?_, hidle⟩
  rcases hlock : s.lock e with _ | p
  · rfl
  · rw [h.locks, hidle] at hlock
    cases hlock

theorem Ok.ref_pos (h : s.Ok) {p : P} {a : Act} {v : View P} (hmove : (s.view p e).Move p a v) :
    0 < (s.entry e).ref := by
  have href := h.refs e
  unfold outstanding at href
  rcases (hmove.keeps (h.locks p e)).busy with huser | hput | hlive
  · have := h.used p e huser
    omega
  · have : 0 < references s.putting e := references_users_pos hput
    omega
  · have : 0 < s.live e := hlive
    omega

theorem Ok.handOut (h : s.Ok) {ip : Inode} (href : ip.ref = s.outstanding e + 1)
    (hunique : ∀ e', e' ≠ e → 0 < (s.entry e').ref → ip.ino ≠ (s.entry e').ino)
    (hdata : Holds (s.holder e) ip.valid ip.data (s.disk ip.ino)) : (s.handOut e ip).Ok := by
  constructor
  · intro e1 e2 h1 h2 heq
    simp only [handOut_entry] at h1 h2 heq
    by_cases he1 : e1 = e <;> by_cases he2 : e2 = e
    · rw [he1, he2]
    · subst he1
      rw [update_self, update_of_ne he2] at heq
      rw [update_of_ne he2] at h2
      exact absurd heq (hunique e2 he2 h2)
    · subst he2
      rw [update_self, update_of_ne he1] at heq
      rw [update_of_ne he1] at h1
      exact absurd heq.symm (hunique e1 he1 h1)
    · rw [update_of_ne he1] at h1 heq
      rw [update_of_ne he2] at h2 heq
      exact h.unique e1 e2 h1 h2 heq
  · intro e'
    have hput : references (s.handOut e ip).putting e' = references s.putting e' := rfl
    unfold outstanding at href ⊢
    rw [hput]
    by_cases he : e' = e
    · subst he
      simp only [handOut_entry, handOut_live, update_self, href]
      omega
    · simpa [he, outstanding] using h.refs e'
  · exact h.locks
  · intro p e' hu
    have hlive := h.used p e' hu
    by_cases he : e' = e
    · simp [he]
    · simpa [he] using hlive
  · intro e' hpos
    show Holds (s.holder e') _ _ _
    by_cases he : e' = e
    · subst he
      simpa using hdata
    · simp only [handOut_entry, update_of_ne he] at hpos ⊢
      exact h.data e' hpos

theorem Ok.another (h : s.Ok) (hpos : 0 < (s.entry e).ref) :
    (s.handOut e { s.entry e with ref := (s.entry e).ref + 1 }).Ok := by
  refine h.handOut ?_ (fun e' he hpos' heq => ?_) (h.data e hpos)
  · show (s.entry e).ref + 1 = _
    rw [h.refs]
  · exact he (h.unique e' e hpos' hpos heq.symm)

theorem Ok.iget {ino : Ino} (h : s.Ok) (hget : s.iget ino = some s') : s'.Ok := by
  rcases iget_cases hget with ⟨e, hpos, -, rfl⟩ | ⟨e, hfree, hnone, rfl⟩
  · exact h.another hpos
  · obtain ⟨hlive, hlock, hidle⟩ := h.free hfree
    refine h.handOut ?_ (fun e' _ hpos heq => hnone e' hpos heq.symm) ?_
    · have href := h.refs e
      show (1 : Int) = _
      omega
    · simp [holder, Foundation.holder, hlock, Holds, Agrees]

theorem Ok.ialloc (h : s.Ok) {ino : Ino} (hfree : (s.disk ino).type = 0) (d : Dinode) :
    Ok { s with disk := update s.disk ino d } := by
  refine { h with data := fun e hpos => ?_ }
  have hdata := h.data e hpos
  show Holds (s.holder e) _ _ (update s.disk ino d (s.entry e).ino)
  by_cases hino : (s.entry e).ino = ino
  · rw [hino] at hdata ⊢
    exact hdata.of_free hfree
  · rwa [update_of_ne hino]

theorem boot_ok (disk : Ino → Dinode) : (boot disk : Icache P).Ok := by
  have hput : ∀ e, references (boot disk : Icache P).putting e = 0 :=
    fun e => references_eq_zero.2 fun _ => nofun
  constructor
  · exact fun _ _ hpos => absurd hpos (lt_irrefl _)
  · intro e
    rw [outstanding, hput]
    rfl
  · exact fun _ _ => by simp [boot, Point.locked]
  · exact fun _ _ hu => Bool.noConfusion hu
  · exact fun _ hpos => absurd hpos (lt_irrefl _)

end Icache

variable [DecidableEq P]

theorem View.next_move (h : v.next p a = some v') : v.Move p a v' := by
  cases a with
  | run => exact View.run_move h
  | ilock =>
    simp only [View.next, Option.ite_none_right_eq_some, Option.some.injEq] at h
    obtain ⟨⟨hpt, hlive, -⟩, rfl⟩ := h
    exact .ilock hpt hlive
  | modify d =>
    simp only [View.next, Option.ite_none_right_eq_some, Option.some.injEq] at h
    obtain ⟨⟨hpt, hd⟩, rfl⟩ := h
    exact .modify hpt hd
  | iunlock =>
    simp only [View.next, Option.ite_none_right_eq_some, Option.some.injEq] at h
    obtain ⟨⟨hpt, -⟩, rfl⟩ := h
    exact .iunlock hpt
  | iput =>
    simp only [View.next, Option.ite_none_right_eq_some, Option.some.injEq] at h
    obtain ⟨⟨hpt, hlive⟩, rfl⟩ := h
    exact .iput hpt hlive

/-- Where the holder of the lock is, if `o` says where the processes other than `p` are. -/
def View.holder (v : View P) (p : P) (o : P → Point) : Point :=
  holderOf .idle v.lock p v.point o

theorem View.Move.holds (h : v.Move p a v') (hlock : v.lock = some p ↔ v.point.locked = true)
    {o : P → Point} (hv : Holds (v.holder p o) v.ip.valid v.ip.data v.dip) :
    Holds (v'.holder p o) v'.ip.valid v'.ip.data v'.dip := by
  obtain ⟨pt, l, n, ip, dip⟩ := v
  cases h <;> obtain rfl : pt = _ := ‹_› <;> cases l <;>
    simp_all [View.holder, holderOf, Holds, Agrees, Point.locked]

namespace Icache

variable {s s' : Icache P} {e : Entry}

variable [Fintype P]

/-- What holds of every entry in use, given where the holder of its lock is, holds after an action
if it does of the entry acted on. -/
theorem Ok.each_store {Φ : Point → Bool → Dinode → Dinode → Prop} (h : s.Ok) {p : P} {v : View P}
    (hpos : 0 < (s.entry e).ref) (hino : v.ip.ino = (s.entry e).ino)
    (hself : Φ ((s.view p e).holder p fun q => s.point (q, e)) (s.entry e).valid (s.entry e).data
        (s.disk (s.entry e).ino) →
      Φ (v.holder p fun q => s.point (q, e)) v.ip.valid v.ip.data v.dip)
    (hall : ∀ e, 0 < (s.entry e).ref →
      Φ (s.holder e) (s.entry e).valid (s.entry e).data (s.disk (s.entry e).ino)) :
    ∀ e', 0 < ((s.store p e v).entry e').ref →
      Φ ((s.store p e v).holder e') ((s.store p e v).entry e').valid ((s.store p e v).entry e').data
        ((s.store p e v).disk ((s.store p e v).entry e').ino) := by
  intro e' hpos'
  by_cases he : e' = e
  · subst he
    rw [show (s.store p e' v).holder e' = v.holder p fun q =>
      s.point (q, e') from holder_update_self]
    simp only [store_entry, store_disk, update_self, hino]
    refine hself ?_
    rw [View.holder, view_lock, view_point, ← holder_eq_holderOf]
    exact hall e' hpos
  · have hpos' : 0 < (s.entry e').ref := by simpa [he] using hpos'
    -- another entry in use is for another inode
    have hne : (s.entry e').ino ≠ (s.entry e).ino := fun heq => he (h.unique e' e hpos' hpos heq)
    rw [show (s.store p e v).holder e' = s.holder e' from holder_update_of_ne he]
    simp only [store_entry, store_disk, update_of_ne he, update_of_ne hne]
    exact hall e' hpos'

theorem Ok.act (h : s.Ok) {p : P} {a : Act} {v : View P} (hmay : a = .iput → s.mayPut e)
    (hmove : (s.view p e).Move p a v) : (s.store p e v).Ok := by
  have hkeeps := hmove.keeps (h.locks p e)
  have hino : v.ip.ino = (s.entry e).ino := hkeeps.ino
  have hpos := h.ref_pos hmove
  constructor
  · intro e1 e2 h1 h2 heq
    -- the numbers stay, and the counts do not grow
    have hold : ∀ e', 0 < ((s.store p e v).entry e').ref →
        0 < (s.entry e').ref ∧ ((s.store p e v).entry e').ino = (s.entry e').ino := by
      intro e' h'
      by_cases he : e' = e
      · subst he
        exact ⟨hpos, by simpa using hino⟩
      · simpa [he] using h'
    obtain ⟨h1, hino1⟩ := hold e1 h1
    obtain ⟨h2, hino2⟩ := hold e2 h2
    rw [hino1, hino2] at heq
    exact h.unique e1 e2 h1 h2 heq
  · intro e'
    have hput : references (s.store p e v).putting e' + _ = references s.putting e' + _ :=
      references_users_update Point.isPut s.point p e v.point e'
    have hrefs := hkeeps.refs
    have href := h.refs e
    unfold outstanding at href ⊢
    by_cases he : e' = e
    · subst he
      simp only [store_entry, store_live, update_self, view_ip, view_live, view_point,
        if_true, Point.put] at hput hrefs ⊢
      push_cast
      omega
    · have href' := h.refs e'
      unfold outstanding at href'
      simp only [store_entry, store_live, update_of_ne he, if_neg he] at hput ⊢
      push_cast
      omega
  · intro q e'
    by_cases he : e' = e
    · subst he
      by_cases hq : q = p
      · subst hq
        simpa using hkeeps.lock
      · have hne : (q, e') ≠ (p, e') := fun heq => hq (Prod.mk.inj heq).1
        simp only [store_lock, store_point, update_self, update_of_ne hne]
        rw [hkeeps.other q (Ne.symm hq)]
        exact h.locks q e'
    · have hne : (q, e') ≠ (p, e) := fun heq => he (Prod.mk.inj heq).2
      simpa [he, hne] using h.locks q e'
  · intro q e' hu
    by_cases he : e' = e
    · subst he
      by_cases hq : q = p
      · subst hq
        rw [store_point, update_self] at hu
        have hlive : 0 < s.live e' := by
          rcases hkeeps.user hu with huser | hlive
          · exact h.used q e' huser
          · exact hlive
        rcases hkeeps.live with hsame | ⟨-, -, hnot⟩
        · simpa [hsame] using hlive
        · simp [hu] at hnot
      · have hne : (q, e') ≠ (p, e') := fun heq => hq (Prod.mk.inj heq).1
        rw [store_point, update_of_ne hne] at hu
        have hlive := h.used q e' hu
        rcases hkeeps.live with hsame | ⟨hiput, hless, -⟩
        · simpa [hsame] using hlive
        -- a live reference is left to `q`
        · rcases hmay hiput with hmore | hnobody
          · simp only [store_live, update_self]
            simp only [view_live] at hless
            omega
          · simp [hnobody q] at hu
    · have hne : (q, e') ≠ (p, e) := fun heq => he (Prod.mk.inj heq).2
      simp only [store_point, store_live, update_of_ne hne, update_of_ne he] at hu ⊢
      exact h.used q e' hu
  · refine h.each_store hpos hino (fun he => ?_) h.data
    exact hmove.holds (h.locks p e) he

theorem Ok.step {ev : Event P} (h : s.Ok) (hstep : s.step ev = some s') : s'.Ok := by
  cases ev with
  | iget ino => exact h.iget hstep
  | idup e =>
    simp only [Icache.step, Option.ite_none_right_eq_some, Option.some.injEq] at hstep
    obtain ⟨hlive, rfl⟩ := hstep
    refine h.another ?_
    rw [h.refs, outstanding]
    omega
  | ialloc ino type =>
    simp only [Icache.step, Option.ite_none_right_eq_some, Option.some.injEq] at hstep
    obtain ⟨⟨hfree, -⟩, rfl⟩ := hstep
    exact h.ialloc hfree _
  | act p e a =>
    simp only [Icache.step, Option.ite_none_right_eq_some, Option.map_eq_some_iff] at hstep
    obtain ⟨hmay, v, hnext, rfl⟩ := hstep
    exact h.act hmay (View.next_move hnext)

/-- The condition: a process drops the last reference to an entry only when `valid` is clear, as the
comment on inodes in `fs.c` has it. -/
def ClearsValid (s : Icache P) : Event P → Prop
  | .act p e .run =>
    s.point (p, e) = .iputDrop → (s.entry e).ref = 1 → (s.entry e).valid = false
  | _ => True

instance (s : Icache P) (ev : Event P) : Decidable (s.ClearsValid ev) := by
  unfold ClearsValid
  split <;> infer_instance

/-- **A step** under the condition leaves no copy in a free entry. -/
theorem Clear.step {ev : Event P} (h : s.Clear) (hok : s.Ok) (hclears : s.ClearsValid ev)
    (hstep : s.step ev = some s') : s'.Clear := by
  cases ev with
  | iget ino =>
    rcases iget_cases hstep with ⟨e, hpos, -, rfl⟩ | ⟨e, -, -, rfl⟩
    · exact h.handOut (by dsimp only; omega)
    · exact h.handOut one_pos
  | idup e =>
    simp only [Icache.step, Option.ite_none_right_eq_some, Option.some.injEq] at hstep
    obtain ⟨hlive, rfl⟩ := hstep
    have href := hok.refs e
    unfold outstanding at href
    exact h.handOut (by dsimp only; omega)
  | ialloc ino type =>
    simp only [Icache.step, Option.ite_none_right_eq_some, Option.some.injEq] at hstep
    obtain ⟨-, rfl⟩ := hstep
    exact h
  | act p e a =>
    simp only [Icache.step, Option.ite_none_right_eq_some, Option.map_eq_some_iff] at hstep
    obtain ⟨-, v, hnext, rfl⟩ := hstep
    have hmove := View.next_move hnext
    have hpos := hok.ref_pos hmove
    intro e' hzero
    by_cases he : e' = e
    · subst he
      simp only [store_entry, update_self] at hzero ⊢
      -- only the end of `iput` lowers the count
      cases hmove with
      | iputDrop hpt => exact hclears hpt (by simp only [view_ip] at hzero; omega)
      | _ => simp_all
    · simpa [he] using h e' (by simpa [he] using hzero)

/-- **Coherence**: what holds in every state. -/
structure Coherent (s : Icache P) : Prop where
  /-- An inode has one entry in use at most. -/
  unique : ∀ e e', 0 < (s.entry e).ref → 0 < (s.entry e').ref →
    (s.entry e).ino = (s.entry e').ino → e = e'
  /-- `ref` counts the references handed out and not yet put. -/
  counted : ∀ e, (s.entry e).ref = s.outstanding e
  /-- An entry in use is not recycled: `iget` leaves it as it is, or hands out one more
  reference. -/
  kept : ∀ ino s', s.iget ino = some s' → ∀ e, 0 < (s.entry e).ref →
    s'.entry e = s.entry e ∨
      (s.entry e).ino = ino ∧ s'.entry e = { s.entry e with ref := (s.entry e).ref + 1 }
  /-- A valid copy that nobody has locked is that of the inode on the disk. -/
  equal : ∀ e, 0 < (s.entry e).ref → s.lock e = none → (s.entry e).valid = true →
    (s.entry e).data = s.disk (s.entry e).ino

/-- **The cache is coherent** in every state that any processes bring about, from any disk. -/
theorem inodes_coherent {disk : Ino → Dinode} (h : Reachable step (boot disk) s) : s.Coherent := by
  have hok : s.Ok := h.invariant Ok (boot_ok disk) fun _ _ _ hok _ hstep => hok.step hstep
  refine ⟨hok.unique, hok.refs, fun ino s' hget e hpos => iget_kept hget hpos, ?_⟩
  intro e hpos hlock hvalid
  have hdata := hok.data e hpos
  rw [holder, Foundation.holder, hlock] at hdata
  exact (hdata hvalid).1

/-- A disk of files with one link. -/
def fileDisk : Ino → Dinode := fun _ => { type := 2, nlink := 1 }

/-- Lock an entry whose inode is not in memory, and unlock it. -/
def readIn (e : Entry) : List (Event Unit) :=
  [.act () e .ilock, .act () e .run, .act () e .run, .act () e .run, .act () e .iunlock]

/-- Put a reference to an inode that has links. -/
def putLinked (e : Entry) : List (Event Unit) :=
  [.act () e .iput, .act () e .run, .act () e .run, .act () e .run, .act () e .run]

/-- An inode is read in, its entry is left, and the inode comes back in another entry. -/
def comeBack : List (Event Unit) :=
  [.iget (1, 1), .iget (1, 2)] ++ readIn 1 ++ putLinked 0 ++ putLinked 1 ++
    [.iget (1, 2)] ++ readIn 0

/-- **All entries are coherent**, those not in use too, in every run in which `valid` is clear when
the last reference to an entry goes. -/
theorem entries_coherent {disk : Ino → Dinode} (h : Run step ClearsValid (boot disk) s) :
    s.Coherent ∧ ∀ e, s.lock e = none → (s.entry e).valid = true →
      (s.entry e).data = s.disk (s.entry e).ino := by
  have hcoherent : s.Coherent := inodes_coherent (h.mono fun _ _ _ => trivial)
  have hclear : s.Ok ∧ s.Clear := by
    refine h.invariant (fun s => s.Ok ∧ s.Clear) ⟨boot_ok disk, fun _ _ => rfl⟩ ?_
    exact fun s ev s' hs hclears hstep => ⟨hs.1.step hstep, hs.2.step hs.1 hclears hstep⟩
  refine ⟨hcoherent, fun e hlock hvalid => hcoherent.equal e ?_ hlock hvalid⟩
  have hne : (s.entry e).ref ≠ 0 := fun hzero => by simp [hclear.2 e hzero] at hvalid
  have := hcoherent.counted e
  omega

/-- A file is read in, loses its last link and is freed with its last reference; then its entry
takes another file. -/
theorem entries_coherent_recycled : ∃ s : Icache Unit, Run step ClearsValid (boot fileDisk) s ∧
    (s.entry 0).ino = (1, 2) ∧ (s.disk (1, 1)).type = 0 ∧ (s.entry 0).valid = true ∧
      (s.entry 0).data = s.disk (1, 2) := by
  obtain ⟨s, hrun, hs⟩ := exists_run_of_runs step ClearsValid (boot fileDisk)
    ([.iget (1, 1), .act () 0 .ilock, .act () 0 .run, .act () 0 .run, .act () 0 .run,
      .act () 0 (.modify { type := 2 }), .act () 0 .run, .act () 0 .iunlock, .act () 0 .iput] ++
      List.replicate 10 (.act () 0 .run) ++ .iget (1, 2) :: readIn 0)
    (fun s => (s.entry 0).ino = (1, 2) ∧ (s.disk (1, 1)).type = 0 ∧ s.lock 0 = none ∧
      (s.entry 0).valid = true) (by decide +kernel)
  simp only [decide_eq_true_eq] at hs
  obtain ⟨hino, hfree, hlock, hvalid⟩ := hs
  have hdata := (entries_coherent hrun).2 0 hlock hvalid
  exact ⟨s, hrun, hino, hfree, hvalid, hino ▸ hdata⟩

/-- **A free entry keeps an old copy**: `iput` does not clear `valid` when `ref` falls to 0, and the
inode may be modified through another entry afterwards. -/
theorem free_entry_stale : ∃ s : Icache Unit, Reachable step (boot fileDisk) s ∧
    ∃ e, s.lock e = none ∧ (s.entry e).valid = true ∧
      (s.entry e).data ≠ s.disk (s.entry e).ino := by
  obtain ⟨s, hrun, hs⟩ := exists_run_of_runs step (fun _ _ => True) (boot fileDisk)
    (comeBack ++ [.act () 0 .ilock, .act () 0 .run, .act () 0 .run,
      .act () 0 (.modify { type := 2, nlink := 2 }), .act () 0 .run, .act () 0 .iunlock])
    (fun s => s.lock 1 = none ∧ (s.entry 1).valid = true ∧
      (s.entry 1).data ≠ s.disk (s.entry 1).ino) (by decide +kernel)
  simp only [decide_eq_true_eq] at hs
  exact ⟨s, hrun, 1, hs⟩

end Icache

end

end Xv6.Inodes
