import Xv6.Files.Table

/-! # Reference counts of open files

The count of an entry of the file table is the number of descriptors that point to it and of the
references that the running code holds on top of them; `Ok s held` says so with `held` for the
latter, and each function of `file.c` has one lemma that says what it does to `held`.

* **`files_counted`** — between calls `f->ref` is the number of descriptors that point to `f`, an
  entry without references has type `FD_NONE`, `filedup` and `fileclose` never panic, and the page
  of a pipe is freed once, when neither end is in a descriptor table. -/

namespace Xv6.Files

open Foundation Function

/-- The references of the running code to one file. -/
def one (f : FileIx) (n : Int) : FileIx → Int := fun g => if g = f then n else 0

@[simp] theorem one_self (f : FileIx) (n : Int) : one f n f = n := if_pos rfl

theorem one_nonneg (f g : FileIx) : 0 ≤ one f 1 g := by
  unfold one
  split <;> omega

/-- The end of the pipe `i` that is written to if `writable`, and read from otherwise, is open. -/
def Tables.isOpen (s : Tables) (i : Nat) (writable : Bool) : Bool :=
  if writable then (s.pipe i).writeopen else (s.pipe i).readopen

/-- The entry `f` is that end of the pipe `i`. -/
def Tables.IsEnd (s : Tables) (f : FileIx) (i : Nat) (writable : Bool) : Prop :=
  (s.file f).type = .pipe ∧ (s.file f).pipe = i ∧ (s.file f).writable = writable

/-- **The invariant**, while the running code holds `held f` references to `f` on top of those in
the descriptor tables. -/
structure Ok (s : Tables) (held : FileIx → Int) : Prop where
  refs : ∀ f, (s.file f).ref = references s.ofile f + held f
  nonneg : ∀ f, 0 ≤ (s.file f).ref
  idle : ∀ f, (s.file f).ref = 0 → (s.file f).type = .none
  dead : ∀ p fd, s.alive p = false → s.ofile (p, fd) = none
  /-- An open end of a pipe is one entry. -/
  ends : ∀ i b, i < s.npipe → (s.isOpen i b = true ↔ ∃ f, s.IsEnd f i b)
  known : ∀ f i b, s.IsEnd f i b → i < s.npipe
  unique : ∀ f g i b, s.IsEnd f i b → s.IsEnd g i b → f = g
  freed : ∀ i < s.npipe, (s.pipe i).freed = if s.isOpen i true || s.isOpen i false then 0 else 1

section

variable {s : Tables} {held held' : FileIx → Int} {f : FileIx}

theorem Ok.setFile (h : Ok s held) {x : File} (href : x.ref = references s.ofile f + held' f)
    (hpos : 0 ≤ x.ref) (hidle : x.ref = 0 → x.type = .none) (hother : ∀ g ≠ f, held' g = held g)
    (hend : ∀ i b, (x.type = .pipe ∧ x.pipe = i ∧ x.writable = b) ↔ s.IsEnd f i b) :
    Ok (s.setFile f x) held' := by
  have hsame : ∀ g i b, (s.setFile f x).IsEnd g i b ↔ s.IsEnd g i b := by
    intro g i b
    by_cases hg : g = f
    · subst hg
      simpa [Tables.IsEnd] using hend i b
    · simp [Tables.IsEnd, update_of_ne hg]
  constructor
  · intro g
    show (update s.file f x g).ref = references s.ofile g + held' g
    by_cases hg : g = f
    · rw [hg, update_self, href]
    · rw [update_of_ne hg, h.refs, hother g hg]
  · intro g
    show 0 ≤ (update s.file f x g).ref
    by_cases hg : g = f
    · rwa [hg, update_self]
    · rw [update_of_ne hg]
      exact h.nonneg g
  · intro g
    show (update s.file f x g).ref = 0 → (update s.file f x g).type = .none
    by_cases hg : g = f
    · rwa [hg, update_self]
    · rw [update_of_ne hg]
      exact h.idle g
  · exact h.dead
  · intro i b hi
    rw [exists_congr fun g => hsame g i b]
    exact h.ends i b hi
  · exact fun g i b hg => h.known g i b ((hsame g i b).1 hg)
  · exact fun g g' i b hg hg' => h.unique g g' i b ((hsame g i b).1 hg) ((hsame g' i b).1 hg')
  · exact h.freed

theorem Ok.setRef (h : Ok s held) {n m : Int} (hm : m = (s.file f).ref + n) (hpos : 0 < m)
    (hheld : ∀ g, held' g = held g + one f n g) :
      Ok (s.setFile f { s.file f with ref := m }) held' := by
  refine h.setFile ?_ hpos.le (fun h0 => absurd h0 hpos.ne') (fun g hg => ?_) fun i b => Iff.rfl
  · show m = _
    rw [hm, h.refs, hheld]
    simp only [one, if_true]
    omega
  · simp [hheld, one, hg]

variable {p : Slot} {fd : Fd}

theorem Ok.setFd (held' : FileIx → Int) (h : Ok s held) (hp : s.alive p = true)
    (hnone : s.ofile (p, fd) = none) (hheld : ∀ g, held' g = held g - one f 1 g) :
    Ok (s.setFd p fd (some f)) held' := by
  refine { h with refs := fun g => ?_, dead := fun q fd' hq => ?_ }
  · show (s.file g).ref = references (update s.ofile (p, fd) (some f)) g + held' g
    rw [references_set hnone, h.refs, hheld, one]
    split <;> omega
  · have hne : (q, fd') ≠ (p, fd) := by
      rintro heq
      obtain ⟨rfl, -⟩ := Prod.mk.inj heq
      have hq : s.alive q = false := hq
      simp [hp] at hq
    show update s.ofile (p, fd) (some f) (q, fd') = none
    rw [update_of_ne hne]
    exact h.dead q fd' hq

theorem Ok.clearFd (held' : FileIx → Int) (h : Ok s held) (hsome : s.ofile (p, fd) = some f)
    (hheld : ∀ g, held' g = held g + one f 1 g) : Ok (s.setFd p fd none) held' := by
  refine { h with refs := fun g => ?_, dead := fun q fd' hq => ?_ }
  · show (s.file g).ref = references (update s.ofile (p, fd) none) g + held' g
    have hclear := references_clear hsome g
    rw [h.refs, hheld, one, ← hclear]
    split <;> omega
  · show update s.ofile (p, fd) none (q, fd') = none
    by_cases hne : (q, fd') = (p, fd)
    · rw [hne, update_self]
    · rw [update_of_ne hne]
      exact h.dead q fd' hq

theorem Ok.ref_pos (h : Ok s held) {x : Slot × Fd} (hx : s.ofile x = some f) (hheld : 0 ≤ held f) :
    1 ≤ (s.file f).ref := by
  have hpos := references_pos hx
  rw [h.refs]
  omega

theorem Ok.ref_pos_of_held (h : Ok s held) (hheld : 1 ≤ held f) : 1 ≤ (s.file f).ref := by
  rw [h.refs]
  omega

/-! ## `file.c` -/

/-- The condition that code never stops. -/
abbrev Never : Panic → Tables → Prop := fun _ _ => False

theorem filealloc_ends (s : Tables) : Ends filealloc s (fun r s' => match r with
    | none => s' = s
    | some f => (s.file f).ref = 0 ∧ s' = s.setFile f { s.file f with ref := 1 }) Never := by
  simp only [filealloc, ends_bind, ends_get]
  split
  · rfl
  · rename_i f hf
    exact ⟨by simpa using List.find?_some hf, rfl⟩

theorem Ok.filealloc (held' : FileIx → Int) (h : Ok s held) (hf : (s.file f).ref = 0)
    (hheld : ∀ g, held' g = held g + one f 1 g) :
    Ok (s.setFile f { s.file f with ref := 1 }) held' :=
  h.setRef (n := 1) (by omega) (by omega) hheld

theorem fdalloc_ends (s : Tables) (p : Slot) (f : FileIx) :
    Ends (fdalloc p f) s (fun r s' => match r with
    | none => s' = s
    | some fd => s.ofile (p, fd) = none ∧ s' = s.setFd p fd (some f)) Never := by
  simp only [fdalloc, ends_bind, ends_get]
  split
  · rfl
  · rename_i fd hfd
    exact ⟨by simpa using List.find?_some hfd, rfl⟩

/-- **`filedup`** of a file in use takes another reference. -/
theorem filedup_ends (held' : FileIx → Int) (h : Ok s held) (hf : 1 ≤ (s.file f).ref)
    (hheld : ∀ g, held' g = held g + one f 1 g) :
    Ends (filedup f) s (fun _ s' => Ok s' held' ∧ s'.ofile = s.ofile ∧ s'.alive = s.alive)
      Never := by
  simp only [filedup, ends_bind, ends_get, ends_stopIf, ends_modify]
  refine ⟨fun hlt => by omega, fun _ => ⟨?_, rfl, rfl⟩⟩
  exact h.setRef rfl (by omega) hheld

theorem Tables.isOpen_closed (s : Tables) (i : Nat) (w : Bool) (j : Nat) (b : Bool) :
    (s.setPipe i ((s.pipe i).closed w)).isOpen j b
      = if j = i ∧ b = w then false else s.isOpen j b := by
  by_cases hj : j = i
  · subst hj
    simp only [isOpen, setPipe_pipe, update_self, Pipe.closed]
    cases w <;> cases b <;> simp <;> split <;> simp_all
  · simp [isOpen, hj]

theorem Tables.freed_closed (s : Tables) (i : Nat) (w : Bool) :
    ((s.pipe i).closed w).freed = (s.pipe i).freed + if s.isOpen i (!w) then 0 else 1 := by
  unfold Pipe.closed isOpen
  cases w
  · cases (s.pipe i).writeopen <;> simp
  · cases (s.pipe i).readopen <;> simp

theorem Ok.closeEnd (h : Ok s held) {i : Nat} {w : Bool} (hf : (s.file f).ref = 1)
    (hself : s.IsEnd f i w) (hheld : ∀ g, held' g = held g - one f 1 g) :
    Ok ((s.setFile f { s.file f with ref := 0, type := .none }).setPipe i
      ((s.pipe i).closed w)) held' := by
  obtain ⟨s', hs'⟩ : ∃ s', s' = (s.setFile f { s.file f with ref := 0, type := .none }).setPipe i
    ((s.pipe i).closed w) := ⟨_, rfl⟩
  rw [← hs']
  have hopen : ∀ j b, s'.isOpen j b = if j = i ∧ b = w then false else s.isOpen j b := by
    intro j b
    rw [← s.isOpen_closed i w j b, hs']
    rfl
  -- the ends that are left are the old ones without `f`
  have hend : ∀ g j b, s'.IsEnd g j b ↔ g ≠ f ∧ s.IsEnd g j b := by
    intro g j b
    by_cases hg : g = f
    · subst hg
      simp [Tables.IsEnd, hs']
    · simp [Tables.IsEnd, hs', hg]
  have hfile : ∀ g ≠ f, s'.file g = s.file g := by
    intro g hg
    simp [hs', update_of_ne hg]
  have hzero : (s'.file f).ref = 0 ∧ (s'.file f).type = .none := by simp [hs']
  constructor
  · intro g
    rw [show s'.ofile = s.ofile by rw [hs']; rfl]
    by_cases hg : g = f
    · have href := h.refs f
      rw [hg, hzero.1, hheld, one, if_pos rfl]
      omega
    · rw [hfile g hg, h.refs, hheld, one, if_neg hg, sub_zero]
  · intro g
    by_cases hg : g = f
    · rw [hg, hzero.1]
    · rw [hfile g hg]
      exact h.nonneg g
  · intro g hg0
    by_cases hg : g = f
    · rw [hg, hzero.2]
    · rw [hfile g hg] at hg0 ⊢
      exact h.idle g hg0
  · rw [hs']
    exact h.dead
  · intro j b hj
    rw [show s'.npipe = s.npipe by rw [hs']; rfl] at hj
    rw [hopen, exists_congr fun g => hend g j b]
    split
    · rename_i hjb
      obtain ⟨rfl, rfl⟩ := hjb
      simp only [Bool.false_eq_true, false_iff, not_exists, not_and]
      exact fun g hg hend => hg (h.unique g f _ _ hend hself)
    · rename_i hjb
      rw [h.ends j b hj]
      refine exists_congr fun g => ⟨fun hg => ⟨?_, hg⟩, fun hg => hg.2⟩
      rintro rfl
      exact hjb ⟨hg.2.1.symm.trans hself.2.1, hg.2.2.symm.trans hself.2.2⟩
  · intro g j b hg
    rw [show s'.npipe = s.npipe by rw [hs']; rfl]
    exact h.known g j b ((hend g j b).1 hg).2
  · exact fun g g' j b hg hg' => h.unique g g' j b ((hend g j b).1 hg).2 ((hend g' j b).1 hg').2
  · intro j hj
    rw [show s'.npipe = s.npipe by rw [hs']; rfl] at hj
    rw [hopen, hopen]
    by_cases hji : j = i
    · subst hji
      -- this end was open until now, so the page had not been freed
      have hwas : s.isOpen j w = true := (h.ends j w hj).2 ⟨f, hself⟩
      have hnow : (s'.pipe j).freed = (s.pipe j).freed + if s.isOpen j (!w) then 0 else 1 := by
        rw [← s.freed_closed j w]
        simp [hs']
      rw [hnow, h.freed j hj]
      cases w
      · simp [hwas]
      · simp [hwas]
    · have hsame : s'.pipe j = s.pipe j := by simp [hs', update_of_ne hji]
      rw [hsame, h.freed j hj]
      simp [hji]

/-- **`fileclose`** of a file in use drops a reference of the code. -/
theorem fileclose_ends (held' : FileIx → Int) (h : Ok s held) (hf : 1 ≤ (s.file f).ref)
    (hheld : ∀ g, held' g = held g - one f 1 g) :
    Ends (fileclose f) s (fun _ s' => Ok s' held' ∧ s'.ofile = s.ofile ∧ s'.alive = s.alive)
      Never := by
  simp only [fileclose, ends_bind, ends_get, ends_stopIf]
  refine ⟨fun hlt => by omega, fun _ => ?_⟩
  have hminus : ∀ g, held' g = held g + one f (-1) g := by
    intro g
    rw [hheld]
    unfold one
    split <;> omega
  split
  · exact ⟨h.setRef (n := -1) (by omega) (by omega) hminus, rfl, rfl⟩
  · have hone : (s.file f).ref = 1 := by omega
    have hzero : (0 : Int) = references s.ofile f + held' f := by
      rw [hheld, one, if_pos rfl]
      have := h.refs f
      omega
    simp only [ends_bind, ends_modify]
    split
    · rename_i htype
      exact ⟨h.closeEnd hone ⟨htype, rfl, rfl⟩ hheld, rfl, rfl⟩
    · rename_i htype
      refine ⟨h.setFile hzero le_rfl (fun _ => rfl) (fun g hg => by simp [hheld, one, hg]) ?_, rfl,
        rfl⟩
      intro i b
      exact ⟨fun hend => (FdType.noConfusion hend.1), fun hend => absurd hend.1 htype⟩

/-! ## `pipe.c` -/

theorem Ok.openPipe (h : Ok s held) {f0 f1 : FileIx} {x0 x1 : File} (hne : f0 ≠ f1)
    (hx0 : x0 = { s.file f0 with
      type := .pipe, readable := true, writable := false, pipe := s.npipe })
    (hx1 : x1 = { s.file f1 with
      type := .pipe, readable := false, writable := true, pipe := s.npipe })
    (href0 : 1 ≤ (s.file f0).ref) (href1 : 1 ≤ (s.file f1).ref)
    (htype0 : (s.file f0).type = .none) (htype1 : (s.file f1).type = .none) :
    Ok ((s.newPipe.setFile f0 x0).setFile f1 x1) held := by
  obtain ⟨s', hs'⟩ : ∃ s', s' = (s.newPipe.setFile f0 x0).setFile f1 x1 := ⟨_, rfl⟩
  rw [← hs']
  have hfile0 : s'.file f0 = x0 := by simp [hs', hne]
  have hfile1 : s'.file f1 = x1 := by simp [hs']
  have hfile : ∀ g, g ≠ f0 → g ≠ f1 → s'.file g = s.file g := by
    intro g hg0 hg1
    simp [hs', hg0, hg1]
  have href : ∀ g, (s'.file g).ref = (s.file g).ref := by
    intro g
    by_cases hg0 : g = f0
    · rw [hg0, hfile0, hx0]
    · by_cases hg1 : g = f1
      · rw [hg1, hfile1, hx1]
      · rw [hfile g hg0 hg1]
  have hnpipe : s'.npipe = s.npipe + 1 := by rw [hs']; rfl
  have hpipe : s'.pipe s.npipe = {} := by simp [hs']
  have hpipe' : ∀ i ≠ s.npipe, s'.pipe i = s.pipe i := by
    intro i hi
    simp [hs', hi]
  -- the new ends are `f0` and `f1`, which were no ends before
  have hend : ∀ g i b, s'.IsEnd g i b ↔
      s.IsEnd g i b ∨ (s.npipe = i ∧ g = if b then f1 else f0) := by
    intro g i b
    unfold Tables.IsEnd
    by_cases hg0 : g = f0
    · subst hg0
      rw [hfile0, hx0, htype0]
      cases b <;> simp [hne]
    · by_cases hg1 : g = f1
      · subst hg1
        rw [hfile1, hx1, htype1]
        cases b <;> simp [hg0]
      · rw [hfile g hg0 hg1]
        cases b <;> simp [hg0, hg1]
  constructor
  · intro g
    rw [href, show s'.ofile = s.ofile by rw [hs']; rfl]
    exact h.refs g
  · intro g
    rw [href]
    exact h.nonneg g
  · intro g hg
    rw [href] at hg
    by_cases hg0 : g = f0
    · rw [hg0] at hg
      omega
    · by_cases hg1 : g = f1
      · rw [hg1] at hg
        omega
      · rw [hfile g hg0 hg1]
        exact h.idle g hg
  · rw [hs']
    exact h.dead
  · intro i b hi
    rw [exists_congr fun g => hend g i b]
    by_cases hnew : i = s.npipe
    · subst hnew
      rw [Tables.isOpen, hpipe]
      cases b <;> simp
    · rw [Tables.isOpen, hpipe' i hnew]
      rw [show (∃ g, s.IsEnd g i b ∨ (s.npipe = i ∧ g = if b then f1 else f0)) ↔
        ∃ g, s.IsEnd g i b by simp [Ne.symm hnew]]
      exact h.ends i b (by omega)
  · intro g i b hg
    rcases (hend g i b).1 hg with hold | ⟨hnew, -⟩
    · have := h.known g i b hold
      omega
    · omega
  · intro g g' i b hg hg'
    rcases (hend g i b).1 hg with hold | ⟨hnew, heq⟩
    · rcases (hend g' i b).1 hg' with hold' | ⟨hnew', -⟩
      · exact h.unique g g' i b hold hold'
      · exact absurd (h.known g i b hold) (by omega)
    · rcases (hend g' i b).1 hg' with hold' | ⟨-, heq'⟩
      · exact absurd (h.known g' i b hold') (by omega)
      · rw [heq, heq']
  · intro i hi
    by_cases hnew : i = s.npipe
    · rw [Tables.isOpen, Tables.isOpen, hnew, hpipe]
      rfl
    · rw [Tables.isOpen, Tables.isOpen, hpipe' i hnew]
      exact h.freed i (by omega)

section

variable (h : Ok s 0)

include h

/-- **`pipealloc`** gives the running code a reference to each end, or nothing. -/
theorem pipealloc_ends (memory : Bool) :
    Ends (pipealloc memory) s (fun r s' => s'.ofile = s.ofile ∧ s'.alive = s.alive ∧ match r with
      | none => Ok s' 0
      | some (f0, f1) => Ok s' fun g => one f0 1 g + one f1 1 g) Never := by
  simp only [pipealloc, ends_bind]
  refine (filealloc_ends s).mono ?_ fun _ _ hn => hn
  rintro (_ | f0) s1 hs1
  · obtain rfl := hs1
    exact ⟨rfl, rfl, h⟩
  obtain ⟨hfree0, rfl⟩ := hs1
  have hok1 := h.filealloc (one f0 1) hfree0 fun g => by simp
  simp only [ends_bind]
  refine (filealloc_ends _).mono ?_ fun _ _ hn => hn
  rintro (_ | f1) s2 hs2
  · obtain rfl := hs2
    simp only [ends_bind, closeIf]
    refine (fileclose_ends 0 hok1 ?_ fun g => ?_).mono ?_ fun _ _ hn => hn
    · exact hok1.ref_pos_of_held (by simp)
    · simp
    · rintro _ s3 ⟨hok3, hofile, halive⟩
      exact ⟨hofile, halive, hok3⟩
  obtain ⟨hfree1, rfl⟩ := hs2
  have hok2 := hok1.filealloc (fun g => one f0 1 g + one f1 1 g) hfree1 fun g => rfl
  have hne : f0 ≠ f1 := by
    rintro rfl
    simp at hfree1
  generalize hs2 : Tables.setFile _ f1 _ = s2 at hok2 ⊢
  have href0 : 1 ≤ (s2.file f0).ref := hok2.ref_pos_of_held (by
    have := one_nonneg f1 f0
    rw [one_self]
    omega)
  have href1 : 1 ≤ (s2.file f1).ref := hok2.ref_pos_of_held (by
    have := one_nonneg f0 f1
    rw [one_self]
    omega)
  have hrest : s2.ofile = s.ofile ∧ s2.alive = s.alive := by
    rw [← hs2]
    exact ⟨rfl, rfl⟩
  cases memory
  case true =>
    simp only [if_true, ends_bind, ends_get, ends_modify]
    refine ⟨hrest.1, hrest.2, hok2.openPipe hne rfl rfl href0 href1 ?_ ?_⟩
    · rw [← hs2]
      simpa [hne] using h.idle f0 hfree0
    · rw [← hs2]
      simpa [hne.symm] using h.idle f1 (by simpa [hne.symm] using hfree1)
  case false =>
    simp only [Bool.false_eq_true, if_false, ends_bind, closeIf]
    refine (fileclose_ends (one f1 1) hok2 href0 fun g => by omega).mono ?_
      fun _ _ hn => hn
    rintro _ s3 ⟨hok3, hofile3, halive3⟩
    refine (fileclose_ends 0 hok3 ?_ fun g => by simp).mono ?_ fun _ _ hn => hn
    · exact hok3.ref_pos_of_held (by simp)
    · rintro _ s4 ⟨hok4, hofile4, halive4⟩
      exact ⟨by rw [hofile4, hofile3, hrest.1], by rw [halive4, halive3, hrest.2], hok4⟩

/-! ## System calls -/

omit h in
theorem argfd_eq_some {n : Int} (h : argfd s p n = some (fd, f)) : s.ofile (p, fd) = some f := by
  unfold argfd at h
  split at h
  · obtain ⟨f', hf', heq⟩ := Option.map_eq_some_iff.1 h
    cases heq
    exact hf'
  · cases h

theorem sysDup_ends (hp : s.alive p = true) (n : Int) :
    Ends (sysDup p n) s (fun _ s' => Ok s' 0) Never := by
  simp only [sysDup, ends_bind, ends_get]
  split
  · exact h
  · rename_i fd f hfd
    have href : 1 ≤ (s.file f).ref := h.ref_pos (argfd_eq_some hfd) le_rfl
    simp only [ends_bind]
    refine (fdalloc_ends s p f).mono ?_ fun _ _ hn => hn
    rintro (_ | fd') s1 hs1
    · obtain rfl := hs1
      exact h
    -- the descriptor is set before the reference is taken
    · obtain ⟨hnone, rfl⟩ := hs1
      have hok1 := h.setFd (f := f) (-one f 1) hp hnone fun g => by simp
      simp only [ends_bind]
      exact (filedup_ends 0 hok1 href fun g => by simp).mono (fun _ _ hs => hs.1) fun _ _ hn => hn

theorem sysClose_ends (p : Slot) (n : Int) :
    Ends (sysClose p n) s (fun _ s' => Ok s' 0) Never := by
  simp only [sysClose, ends_bind, ends_get]
  split
  · exact h
  · rename_i fd f hfd
    have hok1 := h.clearFd (one f 1) (argfd_eq_some hfd) fun g => by simp
    have href := hok1.ref_pos_of_held (f := f) (by simp)
    simp only [ends_bind, ends_modify]
    exact (fileclose_ends 0 hok1 href fun g => by simp).mono (fun _ _ hs => hs.1) fun _ _ hn => hn

theorem sysOpen_ends (hp : s.alive p = true) (ip : Option Nat) (omode : Nat) :
    Ends (sysOpen p ip omode) s (fun _ s' => Ok s' 0) Never := by
  unfold sysOpen
  split
  · exact h
  simp only [ends_bind]
  refine (filealloc_ends s).mono ?_ fun _ _ hn => hn
  rintro (_ | f) s1 hs1
  · obtain rfl := hs1
    exact h
  obtain ⟨hfree, rfl⟩ := hs1
  have hok1 := h.filealloc (one f 1) hfree fun g => by simp
  simp only [ends_bind]
  refine (fdalloc_ends _ p f).mono ?_ fun _ _ hn => hn
  rintro (_ | fd) s2 hs2
  · obtain rfl := hs2
    have href := hok1.ref_pos_of_held (f := f) (by simp)
    simp only [ends_bind]
    exact (fileclose_ends 0 hok1 href fun g => by simp).mono (fun _ _ hs => hs.1) fun _ _ hn => hn
  · obtain ⟨hnone, rfl⟩ := hs2
    have hok2 := hok1.setFd (f := f) 0 hp hnone fun g => by simp
    simp only [ends_bind, ends_modify, ends_pure]
    -- the entry was of no type, and is no end of a pipe now
    refine hok2.setFile (hok2.refs f) (hok2.nonneg f) (fun h0 => ?_) (fun _ _ => rfl) fun i b => ?_
    · simp at h0
    · have htype := h.idle f hfree
      simp [Tables.IsEnd, htype]

theorem sysPipe_ends (hp : s.alive p = true) (ptr memory : Bool) :
    Ends (sysPipe p ptr memory) s (fun _ s' => Ok s' 0) Never := by
  unfold sysPipe
  split
  case isFalse => exact h
  simp only [ends_bind]
  refine (pipealloc_ends h memory).mono ?_ fun _ _ hn => hn
  rintro (_ | ⟨rf, wf⟩) s1 ⟨-, halive, hok1⟩
  · exact hok1
  have hp1 : s1.alive p = true := by rwa [halive]
  -- both failure paths end with the same two calls
  have hclose : ∀ s', Ok s' (fun g => one rf 1 g + one wf 1 g) →
      Ends (fileclose rf) s' (fun _ s' => Ends (fileclose wf) s' (fun _ s' => Ok s' 0) Never)
        Never := by
    intro s' hok'
    have hrf : 1 ≤ (s'.file rf).ref := hok'.ref_pos_of_held (by
      have := one_nonneg wf rf
      rw [one_self]
      omega)
    refine (fileclose_ends (one wf 1) hok' hrf fun g => by omega).mono ?_ fun _ _ hn => hn
    rintro _ s'' ⟨hok'', -⟩
    have hwf := hok''.ref_pos_of_held (f := wf) (by simp)
    exact (fileclose_ends 0 hok'' hwf fun g => by simp).mono (fun _ _ hs => hs.1) fun _ _ hn => hn
  simp only [ends_bind]
  refine (fdalloc_ends s1 p rf).mono ?_ fun _ _ hn => hn
  rintro (_ | fd0) s2 hs2
  · obtain rfl := hs2
    simp only [ends_bind, ends_pure]
    exact hclose _ hok1
  obtain ⟨hnone0, rfl⟩ := hs2
  have hok2 := hok1.setFd (f := rf) (one wf 1) hp1 hnone0 fun g => by omega
  simp only [ends_bind]
  refine (fdalloc_ends _ p wf).mono ?_ fun _ _ hn => hn
  rintro (_ | fd1) s3 hs3
  · obtain rfl := hs3
    simp only [ends_bind, ends_modify, ends_pure]
    refine hclose _ (hok2.clearFd (f := rf) _ (by simp) fun g => ?_)
    exact add_comm _ _
  · obtain ⟨hnone1, rfl⟩ := hs3
    exact hok2.setFd (f := wf) 0 hp1 hnone1 fun g => by simp

omit h in
theorem Ok.setAlive_true (h : Ok s held) (p : Slot) : Ok (s.setAlive p true) held := by
  refine { h with dead := fun q fd hq => ?_ }
  have hq : update s.alive p true q = false := hq
  by_cases hqp : q = p
  · simp [hqp] at hq
  · rw [update_of_ne hqp] at hq
    exact h.dead q fd hq

omit h in
theorem Ok.setAlive_false (h : Ok s held) (hp : ∀ fd, s.ofile (p, fd) = none) :
    Ok (s.setAlive p false) held := by
  refine { h with dead := fun q fd hq => ?_ }
  have hq : update s.alive p false q = false := hq
  by_cases hqp : q = p
  · rw [hqp]
    exact hp fd
  · rw [update_of_ne hqp] at hq
    exact h.dead q fd hq

/-- **The loop of `fork`**: what is left of it goes to empty descriptors. -/
theorem copyFiles_ends {np : Slot} (hnp : s.alive np = true)
    (hempty : ∀ fd, s.ofile (np, fd) = none) :
    Ends (copyFiles p np) s (fun _ s' => Ok s' 0) Never := by
  refine ends_forM_list (fun l s => Ok s 0 ∧ s.alive np = true ∧ l.Nodup ∧
    ∀ fd ∈ l, s.ofile (np, fd) = none) ⟨h, hnp, List.nodup_finRange _, fun fd _ => hempty fd⟩ ?_
    fun _ hs => hs.1
  rintro fd l s ⟨hok, hnp, hnodup, hleft⟩
  obtain ⟨hfd, hnodup⟩ := List.nodup_cons.1 hnodup
  simp only [ends_bind, ends_get]
  split
  · exact ⟨hok, hnp, hnodup, fun fd' hfd' => hleft fd' (List.mem_cons_of_mem _ hfd')⟩
  · rename_i f hf
    have href := hok.ref_pos hf le_rfl
    simp only [ends_bind, ends_modify]
    refine (filedup_ends (one f 1) hok href fun g => by simp).mono ?_ fun _ _ hn => hn
    rintro _ s1 ⟨hok1, hofile, halive⟩
    refine ⟨hok1.setFd 0 (by rwa [halive]) ?_ fun g => by simp, by simpa [halive] using hnp, hnodup,
      ?_⟩
    · rw [hofile]
      exact hleft fd List.mem_cons_self
    · intro fd' hfd'
      have : fd' ≠ fd := fun heq => hfd (heq ▸ hfd')
      simpa [this, hofile] using hleft fd' (List.mem_cons_of_mem _ hfd')

/-- **The loop of `exit`**: what it has passed is empty. -/
theorem closeFiles_ends (p : Slot) :
    Ends (closeFiles p) s (fun _ s' => Ok s' 0 ∧ ∀ fd, s'.ofile (p, fd) = none) Never := by
  refine ends_forM_list (fun l s => Ok s 0 ∧ ∀ fd ∉ l, s.ofile (p, fd) = none)
    ⟨h, fun fd hfd => absurd (List.mem_finRange fd) hfd⟩ ?_ fun s hs =>
      ⟨hs.1, fun fd => hs.2 fd (by simp)⟩
  rintro fd l s ⟨hok, hpast⟩
  simp only [ends_bind, ends_get]
  split
  · rename_i hnone
    refine ⟨hok, fun fd' hfd' => ?_⟩
    by_cases heq : fd' = fd
    · rw [heq, hnone]
    · exact hpast fd' (by simp [heq, hfd'])
  · rename_i f hf
    simp only [ends_bind, ends_modify]
    -- the descriptor still points to the entry when its reference is dropped
    refine (fileclose_ends (-one f 1) hok (hok.ref_pos hf le_rfl) fun g => by simp).mono ?_
      fun _ _ hn => hn
    rintro _ s1 ⟨hok1, hofile, -⟩
    refine ⟨hok1.clearFd 0 (by rw [hofile, hf]) fun g => by simp, fun fd' hfd' => ?_⟩
    by_cases heq : fd' = fd
    · simp [heq]
    · simpa [heq, hofile] using hpast fd' (by simp [heq, hfd'])

theorem newProc_ends (p : Slot) {np : Option Slot}
    (hnp : ∀ q ∈ np, s.alive q = false) : Ends (newProc p np) s (fun _ s' => Ok s' 0) Never := by
  unfold newProc
  split
  · exact h
  · rename_i np
    simp only [ends_bind, ends_modify]
    exact copyFiles_ends (h.setAlive_true np) (by simp) fun fd => h.dead np fd (hnp np rfl)

theorem exit_ends {p : Slot} (hp : p ≠ 0) : Ends (exit p) s (fun _ s' => Ok s' 0) Never := by
  simp only [exit, ends_bind, ends_stopIf, ends_modify]
  refine ⟨fun hzero => absurd hzero hp, fun _ => ?_⟩
  exact (closeFiles_ends h p).mono (fun _ s' hs => hs.1.setAlive_false hs.2) fun _ _ hn => hn

/-- **Every call** keeps the counts and never panics. -/
theorem Call.code_ends {call : Call} (hcall : s.enabled p call) :
    Ends (call.code p) s (fun _ s' => Ok s' 0) Never := by
  obtain ⟨hp, hnp, hexit⟩ := hcall
  cases call with
  | sysOpen ip omode => exact sysOpen_ends h hp ip omode
  | sysPipe ptr memory => exact sysPipe_ends h hp ptr memory
  | sysDup n => exact sysDup_ends h hp n
  | sysClose n => exact sysClose_ends h p n
  | fork np | threadCreate np => exact newProc_ends h p hnp
  | exit => exact exit_ends h (hexit rfl)

/-! ## Runs -/

omit h in
theorem boot_ok : Ok boot 0 := by
  have hrefs : ∀ f, references boot.ofile f = 0 := fun f => references_eq_zero.2 fun _ => nofun
  constructor
  · intro f
    rw [hrefs]
    rfl
  · exact fun _ => le_rfl
  · exact fun _ _ => rfl
  · exact fun _ _ _ => rfl
  · exact fun i b hi => absurd hi (Nat.not_lt_zero i)
  · exact fun f i b hf => FdType.noConfusion hf.1
  · exact fun f g i b hf => FdType.noConfusion hf.1
  · exact fun i hi => absurd hi (Nat.not_lt_zero i)

theorem step_ok {s' : Tables} {e : Slot × Call} (hstep : s.step e = some s') :
    Ok s' 0 := by
  unfold Tables.step at hstep
  split at hstep
  case isFalse => cases hstep
  rename_i henabled
  have hends := Call.code_ends h henabled
  unfold Ends at hends
  split at hstep
  · rename_i hexec
    cases hstep
    rwa [hexec] at hends
  · cases hstep

/-- **The counts are right**: what holds between calls. -/
structure Tables.Counted (s : Tables) : Prop where
  /-- The count of an entry is the number of descriptors that point to it. -/
  refs : ∀ f, (s.file f).ref = references s.ofile f
  /-- An entry without references has type `FD_NONE`. -/
  idle : ∀ f, (s.file f).ref = 0 → (s.file f).type = .none
  /-- The page of a pipe is freed once at most, … -/
  once : ∀ i < s.npipe, (s.pipe i).freed ≤ 1
  /-- … and has been freed exactly when no descriptor points to one of its ends. -/
  freed : ∀ i < s.npipe, (s.pipe i).freed = 1 ↔
    ∀ x f, s.ofile x = some f → ¬ ((s.file f).type = .pipe ∧ (s.file f).pipe = i)

theorem Ok.isOpen_iff {i : Nat} (hi : i < s.npipe) (b : Bool) :
    s.isOpen i b = true ↔ ∃ x f, s.ofile x = some f ∧ s.IsEnd f i b := by
  rw [h.ends i b hi]
  constructor
  · rintro ⟨f, hf⟩
    have hne : references s.ofile f ≠ 0 := by
      intro hzero
      have htype := h.idle f (by rw [h.refs, hzero]; rfl)
      rw [hf.1] at htype
      cases htype
    rw [ne_eq, references_eq_zero] at hne
    push Not at hne
    obtain ⟨x, hx⟩ := hne
    exact ⟨x, f, hx, hf⟩
  · rintro ⟨-, f, -, hf⟩
    exact ⟨f, hf⟩

theorem Ok.counted : s.Counted := by
  refine ⟨fun f => (h.refs f).trans (add_zero _), h.idle, fun i hi => ?_, fun i hi => ?_⟩
  · rw [h.freed i hi]
    split <;> omega
  · rw [h.freed i hi]
    constructor
    · intro hfreed x f hx hf
      have hopen := (h.isOpen_iff hi (s.file f).writable).2 ⟨x, f, hx, hf.1, hf.2, rfl⟩
      have hsome : (s.isOpen i true || s.isOpen i false) = true := by
        cases hw : (s.file f).writable <;> simp [← hw, hopen]
      rw [hsome] at hfreed
      cases hfreed
    · intro hnone
      have hclosed : ∀ b, s.isOpen i b = false := by
        intro b
        rw [← Bool.not_eq_true, h.isOpen_iff hi]
        rintro ⟨x, f, hx, hf⟩
        exact hnone x f hx ⟨hf.1, hf.2.1⟩
      simp [hclosed]

end

/-- **Open files are counted**: after any calls by any processes the counts are right, and the next
call does not panic. -/
theorem files_counted (h : Reachable Tables.step boot s) :
    s.Counted ∧ ∀ p call, s.enabled p call → ∃ r s', Returns (call.code p) s r s' := by
  have hok : Ok s 0 := h.invariant (Ok · 0) boot_ok fun _ _ _ hok _ hstep => step_ok hok hstep
  refine ⟨hok.counted, fun p call hcall => ?_⟩
  have hends := Call.code_ends hok hcall
  unfold Ends at hends
  split at hends
  · exact ⟨_, _, ‹_›⟩
  · exact hends.elim

/-- A process makes a pipe and forks; it closes its ends of the pipe, and the child exits. -/
theorem files_counted_after_close : ∃ s, Reachable Tables.step boot s ∧ s.npipe = 1 ∧
    (s.pipe 0).freed = 1 ∧ (s.file 0).ref = 0 ∧ s.Counted ∧
      ∀ p call, s.enabled p call → ∃ r s', Returns (call.code p) s r s' := by
  obtain ⟨s, hrun, hs⟩ := exists_run_of_runs Tables.step (fun _ _ => True) boot
    [(0, .sysPipe true true), (0, .fork (some 1)), (0, .sysClose 0), (1, .sysClose 1),
      (0, .sysDup 1), (0, .sysClose 0), (0, .sysClose 1), (1, .exit)]
    (fun s => s.npipe = 1 ∧ (s.pipe 0).freed = 1 ∧ (s.file 0).ref = 0) (by decide +kernel)
  simp only [decide_eq_true_eq] at hs
  exact ⟨s, hrun, hs.1, hs.2.1, hs.2.2, files_counted hrun⟩

end

end Xv6.Files
