import Xv6.Fs.Calls
import Xv6.Fs.Frame

/-! # Deadlocks on inode locks

Any number of processes make system calls whose steps interleave.

* **`Fs.locks_acyclic`** — processes do not wait for inode locks in a circle as long as one call at
  a time creates, links or removes names, no call is asked to link a file as `.` or `..`, and the
  inodes that are locked are `Fit`.
* **`Fs.locks_cyclic`** — without these conditions they do: `sys_unlink` and `create` take the lock
  of the directory a second time while they have that of the file, and `sys_link` takes the lock of
  a directory that it has when the new name is `.`. -/

namespace Xv6.Fs

open Foundation Script

/-- The call creates, links or removes names. -/
def Request.changesNames : Request → Bool
  | .call (.link _ _) | .call (.unlink _) | .call (.mkdir _) | .call (.mknod _ _ _) => true
  | .call (.opens _ omode) => omode.any fun omode => omode.toNat &&& O_CREATE ≠ 0
  | _ => false

/-- A request as a job; the calls that change names lock an inode while they have another one. -/
def job (p : Slot) (r : Request) : Job Nat Panic Kernel Int := ⟨r.changesNames, r.code p⟩

/-- Processes and their system calls. -/
abbrev System := Pool Nat Panic Kernel Slot Int

/-! ## What processes promise each other -/

/-- The name is `.` or `..`. -/
def isDots (name : Name) : Bool := namecmp name dot || namecmp name dotdot

/-- The last element of the new path of `link` is neither `.` nor `..`. -/
def Request.plain : Request → Bool
  | .call (.link _ (some new)) => (elements new.length new).getLast?.all fun name => !isDots name
  | _ => true

/-- **What an inode is like while somebody has it locked**, a call that changes names or not. -/
structure Fit (changesNames : Bool) (ip : Nat) (s : Fs) : Prop where
  /-- There is a reference to it. -/
  ref : 0 < (s.mem ip).ref
  /-- Only the entries `.` and `..` of a directory name the directory itself. -/
  loop : (s.disk.inode ip).type = T_DIR → ∀ e ∈ dirents (s.content ip), e.inum = ip → isDots e.name
  /-- A directory without entries is new. -/
  blank : s.Blank ip → changesNames = true

/-- **The terms.** A call keeps the content of all inodes that it has not locked. So it knows the
content of those that it has locked, and a call that makes a directory knows that it is still
empty. -/
def terms : Terms Nat Kernel where
  inv s := s.fs.Sound
  fit w ip s := Fit w ip s.fs
  plain s := ∀ p, ∀ ip ∈ s.cwd p, 0 < (s.fs.mem ip).ref
  rely w H s t :=
    (∀ l ∈ H, t.fs.content l = s.fs.content l ∧
      ((s.fs.mem l).valid = true → (t.fs.mem l).valid = true)) ∧
    (w = true → ∀ l, s.fs.Blank l → t.fs.Blank l)
  guar H s t := Mild H s.fs t.fs
  refl _ _ _ := ⟨fun _ _ => ⟨rfl, id⟩, fun _ _ => id⟩
  trans h h' := ⟨fun l hl => ⟨(h'.1 l hl).1.trans (h.1 l hl).1, (h'.1 l hl).2 ∘ (h.1 l hl).2⟩,
    fun hw l => h'.2 hw l ∘ h.2 hw l⟩
  guar_inv h := h.sound
  guar_rely {v w G H s t} hdisj hnot hG hH h := by
    refine ⟨fun l hl => ⟨h.content (hdisj l hl), fun hv => ?_⟩, fun hw l hblank => ?_⟩
    · exact h.valid (hdisj l hl) ⟨(hH l hl).ref, hv⟩
    · -- nobody else has an empty directory
      have hl : l ∉ G := fun hl => hnot ⟨(hG l hl).blank hblank, hw⟩
      exact ⟨h.dir hl hblank.1, (h.content hl).trans hblank.2⟩

section

variable {α β : Type} {w : Bool} {P : Fs → Prop} {Q : β → List Nat → Kernel → Prop} {H : List Nat}
  {ip dp : Nat} {p : Slot}

/-- **The code is orderly** from every state with `P` in which the locked inodes are valid. -/
def TidyIf (w : Bool) (P : Fs → Prop) (Q : β → List Nat → Kernel → Prop) (H : List Nat)
    (x : Code β) : Prop :=
  ∀ s, (∀ l ∈ H, (s.fs.mem l).valid = true) → P s.fs → x.Orderly terms w Q H s

/-- The code is orderly whatever the state. -/
abbrev Tidy (w : Bool) (Q : β → List Nat → Kernel → Prop) (H : List Nat) (x : Code β) : Prop :=
  TidyIf w (fun _ => True) Q H x

/-- A call that has the locks `H` may count on `P` once it holds. -/
class Stable (w : Bool) (H : List Nat) (P : Fs → Prop) : Prop where
  relied : ∀ {s t}, terms.rely w H s t → P s.fs → P t.fs

instance : Stable w H fun _ => True := ⟨fun _ h => h⟩

instance [Stable w H P] : Stable w (ip :: H) P :=
  ⟨fun h => Stable.relied (w := w) (H := H) ⟨fun l hl => h.1 l (List.mem_cons_of_mem ip hl), h.2⟩⟩

theorem tidy_bind {x : Code α} {f : α → Code β} : TidyIf w P Q H (x >>= f) ↔
    TidyIf w P (fun a H s => (f a).Orderly terms w Q H s) H x :=
  forall₃_congr fun _ _ _ => orderly_bind

theorem Tidy.given {x : Code β} (h : Tidy w Q H x) : TidyIf w P Q H x :=
  fun s hvalid _ => h s hvalid trivial

/-! ## One action -/

theorem onFs_ends {m : Fallible Panic Fs α} {R : α → Fs → Prop} {C : Panic → Fs → Prop} {s : Kernel}
    (h : Ends m s.fs R C) : Ends (onFs m) s (fun a t => R a t.fs) fun _ _ => True :=
  ends_zoom.2 (h.mono (fun _ _ => id) fun _ _ _ => trivial)

theorem rely_of_mild {s t : Kernel} (h : Mild [] s.fs t.fs)
    (hvalid : ∀ l ∈ H, (t.fs.mem l).valid = true) : terms.rely w H s t :=
  ⟨fun l hl => ⟨h.content List.not_mem_nil, fun _ => hvalid l hl⟩, fun _ _ hblank =>
    ⟨h.dir List.not_mem_nil hblank.1, (h.content List.not_mem_nil).trans hblank.2⟩⟩

/-- The action does not touch the file system. -/
class Aside (m : Fallible Panic Kernel α) : Prop where
  ends : ∀ s, Ends m s (fun _ t => t.fs = s.fs) fun _ _ => True

instance : Aside get := ⟨fun _ => rfl⟩

instance {a : α} : Aside (pure a) := ⟨fun _ => rfl⟩

instance {e : Panic} : Aside (throw e : Fallible Panic Kernel α) := ⟨fun _ => trivial⟩

instance {q : Prop} [Decidable q] {e : Panic} : Aside (stopIf q e) := ⟨fun _ => by simp⟩

instance {f : Files.FileIx} {omode : Nat} : Aside (setFile f ip omode) := ⟨fun _ => rfl⟩

instance {fd : Files.Fd} : Aside (clearFd p fd) := ⟨fun _ => rfl⟩

instance {d : Option Nat} : Aside (setCwd p d) := ⟨fun _ => rfl⟩

instance {alive : Bool} : Aside (modify fun s => { s with tables := s.tables.setAlive p alive }) :=
  ⟨fun _ => rfl⟩

instance {f : Files.FileIx} {r : Int} : Aside (advance f r) :=
    ⟨fun s => by simp [advance, ends_onlyIf]⟩

instance {m : Files.Code α} : Aside (onTables m) :=
  ⟨fun _ => ends_zoom.2 (ends_of_forall_returns (fun _ _ _ => rfl) fun _ _ => trivial)⟩

instance Aside.bind {m : Fallible Panic Kernel α} {f : α → Fallible Panic Kernel β} [Aside m]
    [∀ a, Aside (f a)] : Aside (m >>= f) :=
  ⟨fun s => ends_bind.2 ((Aside.ends s).imp fun _ t ht => (Aside.ends t).imp fun _ _ =>
    (·.trans ht))⟩

instance : Aside (onFs (checkRef ip)) := ⟨fun s => by simp [onFs, checkRef, ends_bind]⟩

section

variable {m : Fallible Panic Kernel α} {f : α → Code β} [Stable w H P]

theorem tidy_act {R : α → Fs → Prop}
    (hm : ∀ s, terms.Fits w H s → (∀ l ∈ H, s.fs.InUse l) → P s.fs →
      Ends m s (fun a t => Mild H s.fs t.fs ∧ (∀ l ∈ H, (t.fs.mem l).valid = true) ∧ R a t.fs)
        fun _ _ => True)
    (h : ∀ a, TidyIf w (R a) Q H (f a)) : TidyIf w P Q H (act m >>= f) := by
  intro s hvalid hP s' hs' hfits a t hret
  -- the others have brought the state from `s` to `s'` before the action begins
  have huse : ∀ l ∈ H, s'.fs.InUse l :=
    fun l hl => ⟨(hfits.fit l hl).ref, (hs'.1 l hl).2 (hvalid l hl)⟩
  obtain ⟨hmild, hvalid', hR⟩ := (hm s' hfits huse (Stable.relied hs' hP)).of_returns hret
  exact ⟨hmild, h a t hvalid' hR⟩

theorem tidy_silent (hm : ∀ s, terms.Fits w H s → (∀ l ∈ H, s.fs.InUse l) →
      Ends m s (fun _ t => Mild [] s.fs t.fs) fun _ _ => True)
    (h : ∀ a, TidyIf w P Q H (f a)) : TidyIf w P Q H (act m >>= f) := by
  refine tidy_act (fun s hfits huse hP => (hm s hfits huse).imp fun a t hmild => ?_) h
  have hvalid : ∀ l ∈ H, (t.fs.mem l).valid = true :=
    fun l hl => hmild.valid List.not_mem_nil (huse l hl)
  exact ⟨hmild.mono (by simp), hvalid, Stable.relied (rely_of_mild (w := w) hmild hvalid) hP⟩

theorem tidy_aside [Aside m] (h : ∀ a, TidyIf w P Q H (f a)) : TidyIf w P Q H (act m >>= f) := by
  refine tidy_silent (fun s hfits _ => (Aside.ends s).imp fun _ t ht => ?_) h
  rw [ht]
  exact .refl hfits.inv

theorem tidy_write {m : Fallible Panic Fs α} {R : α → Fs → Prop} (hip : ip ∈ H)
    (hm : ∀ s : Fs, s.Sound → s.InUse ip → P s →
      Ends m s (fun a t => Mild [ip] s t ∧ (t.mem ip).valid = true ∧ R a t) fun _ _ => True)
    (h : ∀ a, TidyIf w (R a) Q H (f a)) : TidyIf w P Q H (act (onFs m) >>= f) := by
  refine tidy_act (fun s hfits huse hs => (onFs_ends (hm s.fs hfits.inv (huse ip hip) hs)).imp ?_) h
  rintro a t ⟨hmild, hvalid, ht⟩
  refine ⟨hmild.mono (by simpa using hip), fun l hl => ?_, ht⟩
  by_cases hl' : l ∈ [ip]
  · rwa [List.mem_singleton.1 hl']
  · exact hmild.valid hl' (huse l hl)

end

/-! ## Every call is orderly

One rule for each function, about the function together with the code behind it. -/

section

variable {f : PUnit → Code β}

theorem tidy_addLinks [Stable w H P] {n : Int} (hip : ip ∈ H) (h : TidyIf w P Q H (f ⟨⟩)) :
    TidyIf w P Q H (act (onFs (addLinks ip n)) >>= f) :=
  tidy_silent (fun _ hfits huse => onFs_ends (relabel_mild hfits.inv (huse ip hip)
    (f := fun d => { d with nlink := short (d.nlink + n) })
    ⟨fun _ => rfl, fun _ => rfl, fun _ => rfl⟩)) fun _ => h

theorem tidy_ilock [Stable w H P] (hi : ip ∉ H) (hk : H ≠ [] → w = true)
    (h : TidyIf w P Q (ip :: H) (f ⟨⟩)) : TidyIf w P Q H (ilock ip >>= f) := by
  refine tidy_aside (f := fun _ => (acquiresleep ip >>= fun _ => act (onFs (load ip))) >>= f) ?_
  intro _ s hvalid hP
  -- others work while the process waits (`s1`), and before it reads the inode (`s2`)
  refine ⟨hi, hk, fun s1 hs1 s2 hs2 hfits _ t hret => ?_⟩
  obtain ⟨hmild, hip⟩ := (onFs_ends (load_mild hfits.inv
    (hfits.fit ip List.mem_cons_self).ref)).of_returns hret
  have hvalid' : ∀ l ∈ ip :: H, (t.fs.mem l).valid = true := by
    rintro l (_ | ⟨_, hl⟩)
    · exact hip
    · have hl' := List.mem_cons_of_mem ip hl
      exact hmild.valid List.not_mem_nil
        ⟨(hfits.fit l hl').ref, (hs2.1 l hl').2 ((hs1.1 l hl).2 (hvalid l hl))⟩
  refine ⟨hmild.mono (by simp), h t hvalid' ?_⟩
  exact Stable.relied (rely_of_mild (w := w) hmild hvalid')
    (Stable.relied hs2 (Stable.relied hs1 hP))

theorem tidy_ilock_first (h : Tidy w Q [ip] (f ⟨⟩)) : Tidy w Q [] (ilock ip >>= f) :=
  tidy_ilock (by simp) (by simp) h

theorem tidy_iunlock (h : Tidy w Q (H.erase ip) (f ⟨⟩)) : Tidy w Q H (iunlock ip >>= f) := by
  refine tidy_aside (f := fun _ => releasesleep ip >>= f) fun _ s hvalid _ _ s' hs' => ?_
  refine h s' (fun l hl => ?_) trivial
  have hl' := List.mem_of_mem_erase hl
  exact (hs'.1 l hl').2 (hvalid l hl')

theorem tidy_iunlock_last (h : Tidy w Q [] (f ⟨⟩)) : Tidy w Q [ip] (iunlock ip >>= f) :=
  tidy_iunlock (by rwa [List.erase_cons_head])

theorem tidy_iput (hi : ip ∉ H) (hk : H ≠ [] → w = true) (h : Tidy w Q H (f ⟨⟩)) :
    Tidy w Q H (iput ip >>= f) := by
  intro s hvalid _
  -- the lock is taken, and given back before the reference is dropped
  refine ⟨hi, hk, fun s1 hs1 s2 hs2 hfits _ t hret => ?_⟩
  have hmild := (onFs_ends (freeUnlinked_mild hfits.inv)).of_returns hret
  refine ⟨hmild.mono (by simp), fun _ s3 hs3 => ?_⟩
  rw [List.erase_cons_head]
  refine tidy_silent (f := f) (fun _ hfits _ => onFs_ends (dropRef_mild hfits.inv)) (fun _ => h) s3
    (fun l hl => ?_) trivial
  have hl' := List.mem_cons_of_mem ip hl
  have hne : l ∉ [ip] := by
    rintro (_ | ⟨_, ⟨⟩⟩)
    exact hi hl
  exact (hs3.1 l hl').2 (hmild.valid hne
    ⟨(hfits.fit l hl').ref, (hs2.1 l hl').2 ((hs1.1 l hl).2 (hvalid l hl))⟩)

theorem tidy_iunlockput (hi : ip ∉ H.erase ip) (hk : H.erase ip ≠ [] → w = true)
    (h : Tidy w Q (H.erase ip) (f ⟨⟩)) : Tidy w Q H (iunlockput ip >>= f) :=
  tidy_iunlock (f := fun _ => iput ip >>= f) (tidy_iput hi hk h)

theorem tidy_iunlockput_last (h : Tidy w Q [] (f ⟨⟩)) : Tidy w Q [ip] (iunlockput ip >>= f) := by
  apply tidy_iunlockput <;> simp [h]

theorem tidy_iput_free (h : Tidy w Q [] (f ⟨⟩)) : Tidy w Q [] (iput ip >>= f) :=
  tidy_iput (by simp) (by simp) h

end

variable {name : Name} {type off n : Nat} {major minor answer : Int} {i : Files.FileIx}
  {src : Nat → UInt8}

/-- The code goes on with a state in which the name is not there, or with an inode. The inode is not
the directory itself unless the name is `.` or `..`. -/
theorem tidy_dirlookup {f : Option (Nat × Nat) → Code β} (hdp : dp ∈ H)
    (hnone : TidyIf w (fun s => lookup (s.content dp) name = none) Q H (f none))
    (hsome : ∀ i off, (isDots name = false → i ≠ dp) → Tidy w Q H (f (some (i, off)))) :
    Tidy w Q H (dirlookup dp name >>= f) := by
  refine tidy_act (R := fun r t =>
    (r = none → lookup (t.content dp) name = none) ∧ ∀ x ∈ r, isDots name = false → x.1 ≠ dp)
      (fun s hfits huse _ => ?_) ?_
  · rw [ends_bind]
    refine (onFs_ends (dirfind_ends hfits.inv (huse dp hdp))).imp ?_
    rintro (_ | ⟨i, off⟩) s1 ⟨hs1, hr, hdir⟩
    · rw [ends_pure, hs1]
      exact ⟨.refl hfits.inv, fun l hl => (huse l hl).valid, fun _ => hr.symm, by simp⟩
    · rw [ends_bind]
      refine (onFs_ends (iget_mild (hs1 ▸ hfits.inv))).imp fun _ t hmild => ?_
      rw [hs1] at hmild
      refine ⟨hmild.mono (by simp), fun l hl => hmild.valid List.not_mem_nil (huse l hl), by simp,
        ?_⟩
      rintro _ ⟨⟩ hdots rfl
      -- the entry with this name would be `.` or `..`
      obtain ⟨e, he, heq, hname⟩ := mem_of_lookup hr.symm
      have := (hfits.fit _ hdp).loop hdir e he heq
      simp only [isDots, namecmp, Bool.or_eq_true, Bool.or_eq_false_iff, decide_eq_true_eq,
        decide_eq_false_iff_not] at this hdots hname
      rw [← hname] at this
      exact this.elim hdots.1 hdots.2
  · rintro (_ | ⟨i, off⟩)
    · exact fun s hvalid h => hnone s hvalid (h.1 rfl)
    · exact fun s hvalid h => hsome i off (h.2 _ rfl) s hvalid trivial

theorem dupCwd_mild {s : Kernel} (h : terms.Fits w H s) :
    Ends (dupCwd p) s (fun _ t => Mild [] s.fs t.fs) fun _ _ => True := by
  rw [dupCwd, ends_bind, ends_get]
  split
  · rename_i ip hip
    rw [ends_bind]
    exact onFs_ends (idup_mild h.inv (h.plain p ip hip))
  · trivial

theorem startOf_mild {s : Kernel} {path : Path} (h : terms.Fits w H s) :
    Ends (startOf p path) s (fun _ t => Mild [] s.fs t.fs) fun _ _ => True := by
  unfold startOf
  split
  · rw [ends_bind]
    exact onFs_ends (iget_mild h.inv)
  · exact dupCwd_mild h

theorem tidy_walk {parent : Bool} {names : List Name}
    {Q : Option (Nat × Name) → List Nat → Kernel → Prop}
    (hQ : ∀ r s, (parent = true → ∀ x ∈ r, x.2 ∈ names.getLast?) → Q r [] s) :
    Tidy w Q [] (walk parent ip names) := by
  have hnone : ∀ s, Q none [] s := fun s => hQ none s (by simp)
  induction names generalizing ip with
  | nil =>
    rw [walk]
    split
    · exact tidy_iput_free fun s _ _ => hnone s
    · rename_i hparent
      exact fun s _ _ => hQ _ s fun h => absurd h hparent
  | cons name rest ih =>
    rw [walk]
    refine tidy_ilock_first (tidy_aside fun d => ?_)
    split
    · exact tidy_iunlockput_last fun s _ _ => hnone s
    · split
      · -- `nameiparent` stops one level early
        rename_i hlast
        refine tidy_iunlock_last fun s _ _ => hQ _ s ?_
        rintro - _ ⟨⟩
        simp [hlast.2]
      · rename_i hnot
        refine tidy_dirlookup List.mem_cons_self ?_ fun next off _ => ?_
        · exact Tidy.given (tidy_iunlockput_last fun s _ _ => hnone s)
        · refine tidy_iunlockput_last (ih fun r s hr => hQ r s fun hparent x hx => ?_)
          have hrest : rest ≠ [] := fun hrest => hnot ⟨hparent, hrest⟩
          rw [List.getLast?_cons_of_ne_nil hrest]
          exact hr hparent x hx

theorem tidy_namex {path : Path} {parent : Bool} {f : Option (Nat × Name) → Code β}
    (h : ∀ r, (parent = true → ∀ x ∈ r, x.2 ∈ (elements path.length path).getLast?) →
      Tidy w Q [] (f r)) : Tidy w Q [] (namex p path parent >>= f) := by
  refine tidy_bind.2 (tidy_silent (fun s hfits _ => startOf_mild hfits) fun ip => ?_)
  exact tidy_walk fun r s hr => h r hr s (by simp) trivial

theorem tidy_linkBad : Tidy w Pool.NoLocks [] (linkBad ip) :=
  tidy_ilock_first (tidy_addLinks List.mem_cons_self (tidy_iunlockput_last fun _ _ _ => rfl))

theorem tidy_linkTo {new : Path}
    (hnew : ((elements new.length new).getLast?.all fun name => !isDots name) = true) :
    Tidy true Pool.NoLocks [ip] (linkTo p ip new) := by
  refine tidy_addLinks List.mem_cons_self (tidy_iunlock_last (tidy_namex ?_))
  rintro (_ | ⟨dp, name⟩) hname
  · exact tidy_linkBad
  · refine tidy_ilock_first ?_
    have hbad : Tidy true Pool.NoLocks [dp] (iunlockput dp >>= fun _ => linkBad ip) :=
      tidy_iunlockput_last tidy_linkBad
    refine tidy_dirlookup List.mem_cons_self ?_ fun i off hne => ?_
    · refine Tidy.given (tidy_write (R := fun _ _ => True) List.mem_cons_self (fun _ h hu _ => ?_)
        fun _ => tidy_iunlockput_last (tidy_iput_free fun _ _ _ => rfl))
      exact (dirwrite_mild h hu).imp fun _ _ hs => ⟨hs.1, hs.2.1, trivial⟩
    · -- the name is not `.` or `..`, so that another inode is put
      rw [hname rfl _ rfl] at hnew
      exact tidy_iput (by simpa using hne (by simpa using hnew)) (fun _ => rfl) hbad

theorem tidy_sysLink {old new : Option Path} (hplain : (Request.call (.link old new)).plain) :
    Tidy true Pool.NoLocks [] (sysLink p old new) := by
  unfold sysLink
  split
  · apply tidy_namex
    rintro (_ | ⟨ip, _⟩) -
    · exact fun _ _ _ => rfl
    · refine tidy_ilock_first (tidy_aside fun d => ?_)
      split
      · exact tidy_iunlockput_last fun _ _ _ => rfl
      · exact tidy_linkTo hplain
  · exact fun _ _ _ => rfl

theorem tidy_unlinkBad : Tidy w Pool.NoLocks [dp] (unlinkBad dp) :=
  tidy_iunlockput_last fun _ _ _ => rfl

theorem tidy_unlinkFound (hne : ip ≠ dp) :
    Tidy true Pool.NoLocks [dp] (unlinkFound dp ip off) := by
  have herase : [ip, dp].erase dp = [ip] := by simp [hne]
  have hdp : dp ∈ [ip, dp] := by simp
  refine tidy_ilock (by simpa using hne) (fun _ => rfl) (tidy_aside fun d => tidy_aside fun _ => ?_)
  refine tidy_silent (fun s hfits huse => ?_) fun r => ?_
  · refine onFs_ends (C := fun _ _ => True) ?_
    rw [inUseDir, ends_bind, ends_get]
    split
    · rw [ends_bind]
      refine (isdirempty_same hfits.inv (huse ip List.mem_cons_self)).imp ?_
      rintro r t rfl
      exact .refl hfits.inv
    · exact .refl hfits.inv
  split
  · apply tidy_iunlockput <;> rw [List.erase_cons_head]
    · simpa using hne
    · exact fun _ => rfl
    · exact tidy_unlinkBad
  · -- the directory is put while the file is locked
    have hput : Tidy true Pool.NoLocks [ip, dp] (do
        iunlockput dp
        act (onFs (addLinks ip (-1)))
        iunlockput ip
        pure 0 : Code Int) := by
      apply tidy_iunlockput <;> rw [herase]
      · simpa using Ne.symm hne
      · exact fun _ => rfl
      · exact tidy_addLinks List.mem_cons_self (tidy_iunlockput_last fun _ _ _ => rfl)
    refine tidy_write (R := fun _ _ => True) hdp (fun _ h hu _ => ?_) fun _ => ?_
    · exact (writeDirent_mild h hu).imp fun _ _ hs => ⟨hs.1, hs.2, trivial⟩
    · unfold unlinkParent
      split
      · exact tidy_addLinks hdp hput
      · exact hput

theorem tidy_sysUnlink (path : Option Path) : Tidy true Pool.NoLocks [] (sysUnlink p path) := by
  unfold sysUnlink
  split
  · exact fun _ _ _ => rfl
  · apply tidy_namex
    rintro (_ | ⟨dp, name⟩) -
    · exact fun _ _ _ => rfl
    · apply tidy_ilock_first
      split
      · exact tidy_unlinkBad
      · rename_i hdots
        refine tidy_dirlookup List.mem_cons_self tidy_unlinkBad.given fun ip off hne => ?_
        exact tidy_unlinkFound (hne (by simpa [isDots] using hdots))

theorem tidy_mustLink {R : Fs → Prop} {Q : PUnit → List Nat → Kernel → Prop} [Stable true H P]
    [Stable true H R] {inum : Nat} (hdp : dp ∈ H)
    (hfree : ∀ s, P s → lookup (s.content dp) name = none)
    (hP : ∀ s t, P s → Mild [dp] s t →
      (s.Blank dp → t.content dp = (List.range DIRENT).map (encode inum name)) → R t)
    (h : TidyIf true R Q H (pure ⟨⟩)) : TidyIf true P Q H (mustLink dp name inum) := by
  refine tidy_act (R := fun r s => r = none ∧ P s) (fun s hfits huse hs => ?_) ?_
  · rw [ends_bind]
    refine (onFs_ends (dirfind_ends hfits.inv (huse dp hdp))).imp ?_
    rintro r s1 ⟨hs1, hr, -⟩
    rw [hfree _ hs] at hr
    subst hr
    rw [ends_pure, hs1]
    exact ⟨.refl hfits.inv, fun l hl => (huse l hl).valid, rfl, hs⟩
  rintro (_ | _) s hvalid ⟨hnone, hs⟩
  · refine tidy_write (P := P) (R := fun _ => R) (m := dirwrite dp name inum) hdp
      (f := fun _ => act (stopIf ((0 : Int) < 0) .createLink)) (fun s hsound huse hs => ?_)
      (fun _ => tidy_aside fun _ => h) s hvalid hs
    exact (dirwrite_mild hsound huse).imp fun _ t ht => ⟨ht.1, ht.2.1, hP s t hs ht.1 ht.2.2⟩
  · cases hnone

theorem stable_lookup (name : Name) (hdp : dp ∈ H) :
    Stable w H fun s => lookup (s.content dp) name = none :=
  ⟨fun h hs => by rwa [(h.1 dp hdp).1]⟩

instance : Stable true H fun s => type = T_DIR → s.Blank ip :=
    ⟨fun h hs htype => h.2 rfl ip (hs htype)⟩

instance {R : Fs → Prop} [Stable w H P] [Stable w H R] : Stable w H fun s => P s ∧ R s :=
  ⟨fun h hs => ⟨Stable.relied h hs.1, Stable.relied h hs.2⟩⟩

theorem lookup_dot (i : Nat) : lookup ((List.range DIRENT).map (encode i dot)) dotdot = none := by
  have hname : namecmp dotdot (direntAt ((List.range DIRENT).map (encode i dot)) 0).name = false :=
    rfl
  have hlen : entries ((List.range DIRENT).map (encode i dot)).length = 1 := by simp [entries]
  rw [lookup, hlen]
  simp [hname]

theorem tidy_createDots {f : PUnit → Code β} (hne : ip ≠ dp)
    (h : TidyIf true (fun s => lookup (s.content dp) name = none) Q [ip, dp] (f ⟨⟩)) :
    TidyIf true (fun s => lookup (s.content dp) name = none ∧ (type = T_DIR → s.Blank ip))
      Q [ip, dp] (createDots dp ip type >>= f) := by
  have hdp : dp ∈ [ip, dp] := by simp
  have := stable_lookup (w := true) name hdp
  have : Stable true [ip, dp] _ := stable_lookup dotdot (List.mem_cons_self (a := ip))
  have hother : ∀ {s t : Fs}, Mild [ip] s t → t.content dp = s.content dp :=
    fun hmild => hmild.content (by simpa using hne.symm)
  refine tidy_bind.2 ?_
  unfold createDots
  split
  · rename_i hdir
    refine tidy_addLinks hdp (tidy_bind.2 ?_)
    refine tidy_mustLink (R := fun s => lookup (s.content dp) name = none ∧
      lookup (s.content ip) dotdot = none) List.mem_cons_self (fun s hs => ?_)
      (fun s t hs hmild hfirst => ?_) ?_
    · rw [(hs.2 hdir).2]
      rfl
    · rw [hother hmild, hfirst (hs.2 hdir)]
      exact ⟨hs.1, lookup_dot ip⟩
    · have hlast : TidyIf true (fun s => lookup (s.content dp) name = none ∧
          lookup (s.content ip) dotdot = none) (fun a H s => (f a).Orderly terms true Q H s)
          [ip, dp] (mustLink ip dotdot dp) := by
        refine tidy_mustLink (R := fun s => lookup (s.content dp) name = none) List.mem_cons_self
          (fun s hs => hs.2) (fun s t hs hmild _ => ?_) h
        rw [hother hmild]
        exact hs.1
      exact hlast
  · exact fun s hvalid hs => h s hvalid hs.1

theorem tidy_createIn {f : Nat → Code β} (h : ∀ ip, Tidy true Q [ip] (f ip)) :
    TidyIf true (fun s => lookup (s.content dp) name = none) Q [dp]
      (createIn dp name type major minor >>= f) := by
  have : Stable true [dp] _ := stable_lookup name List.mem_cons_self
  refine tidy_bind.2 (tidy_act (R := fun ip s => ip ≠ dp ∧
    lookup (s.content dp) name = none ∧ (type = T_DIR → s.Blank ip)) (fun s hfits huse hs => ?_)
    fun ip s hvalid hs => ?_)
  · refine (onFs_ends (ialloc_mild hfits.inv)).imp ?_
    rintro ip t ⟨hmild, hfree, htype, hempty⟩
    refine ⟨hmild.mono (by simp), fun l hl => hmild.valid List.not_mem_nil (huse l hl), ?_, ?_,
      fun hdir => ⟨htype.trans hdir, hempty⟩⟩
    · -- the directory is in use
      rintro rfl
      exact hfits.inv.type_ne (huse ip List.mem_cons_self) hfree
    · rwa [hmild.content List.not_mem_nil]
  · obtain ⟨hne, hs⟩ := hs
    have herase : [ip, dp].erase dp = [ip] := by simp [hne]
    have hdp : dp ∈ [ip, dp] := by simp
    have := stable_lookup (w := true) name hdp
    refine tidy_ilock (P := fun s => lookup (s.content dp) name = none ∧
        (type = T_DIR → s.Blank ip))
      (by simpa using hne) (fun _ => rfl) (tidy_silent (fun s hfits huse => ?_) fun _ => ?_)
        s hvalid hs
    · exact onFs_ends (relabel_mild hfits.inv (huse ip List.mem_cons_self)
        (f := fun d => { d with major := short major, minor := short minor, nlink := 1 })
        ⟨fun _ => rfl, fun _ => rfl, fun _ => rfl⟩)
    · refine tidy_createDots hne (tidy_bind.2 ?_)
      refine tidy_mustLink (R := fun _ => True) hdp (fun _ hs => hs) (fun _ _ _ _ _ => trivial) ?_
      apply tidy_iunlockput <;> rw [herase]
      · simpa using Ne.symm hne
      · exact fun _ => rfl
      · exact h ip

theorem tidy_create {path : Path} {f : Option Nat → Code β} (hnone : Tidy true Q [] (f none))
    (hsome : ∀ ip, Tidy true Q [ip] (f (some ip))) :
    Tidy true Q [] (create p path type major minor >>= f) := by
  refine tidy_bind.2 (tidy_namex ?_)
  rintro (_ | ⟨dp, name⟩) -
  · exact hnone
  · refine tidy_ilock_first (tidy_dirlookup List.mem_cons_self (tidy_createIn hsome)
      fun ip off _ => ?_)
    refine tidy_iunlockput_last (tidy_ilock_first (tidy_aside fun d => ?_))
    split
    · exact hsome ip
    · exact tidy_iunlockput_last hnone

theorem tidy_putCreated {path : Path} :
    Tidy true Pool.NoLocks [] (create p path type major minor >>= putCreated) :=
  tidy_create (fun _ _ _ => rfl) fun _ => tidy_iunlockput_last fun _ _ _ => rfl

instance : Aside (allocFile p) := by
  refine @Aside.bind _ _ _ _ _ ?_
  rintro (_ | f)
  · exact inferInstanceAs (Aside (pure none))
  · refine @Aside.bind _ _ _ _ _ ?_
    rintro (_ | fd) <;> dsimp only <;> infer_instance

theorem tidy_openInode {omode : Nat} : Tidy w Pool.NoLocks [ip] (openInode p ip omode) := by
  apply tidy_aside
  rintro (_ | ⟨f, fd⟩)
  · exact tidy_iunlockput_last fun _ _ _ => rfl
  · exact tidy_iunlock_last (tidy_aside fun _ _ _ _ => rfl)

theorem tidy_sysOpen (path : Option Path) (omode : Option UInt32)
    (hk : (omode.any fun omode => omode.toNat &&& O_CREATE ≠ 0) = true → w = true) :
    Tidy w Pool.NoLocks [] (sysOpen p path omode) := by
  unfold sysOpen
  split
  · split
    · rename_i hcreate
      obtain rfl := hk (by simpa using hcreate)
      exact tidy_create (fun _ _ _ => rfl) fun ip => tidy_openInode
    · apply tidy_namex
      rintro (_ | ⟨ip, _⟩) -
      · exact fun _ _ _ => rfl
      · refine tidy_ilock_first (tidy_aside fun d => ?_)
        split
        · exact tidy_iunlockput_last fun _ _ _ => rfl
        · exact tidy_openInode
  · exact fun _ _ _ => rfl

theorem tidy_fileclose {f : PUnit → Code β} (h : Tidy w Q [] (f ⟨⟩)) :
    Tidy w Q [] (fileclose i >>= f) := by
  refine tidy_bind.2 (tidy_aside fun s => tidy_aside fun _ => ?_)
  split
  · exact tidy_bind.1 (tidy_iput_free h)
  · exact h

theorem tidy_putCwd {f : PUnit → Code β} (h : Tidy w Q [] (f ⟨⟩)) :
    Tidy w Q [] (putCwd p >>= f) := by
  refine tidy_bind.2 (tidy_aside fun s => ?_)
  split
  · exact tidy_bind.1 (tidy_iput_free h)
  · exact tidy_bind.1 (tidy_aside fun _ => h)

theorem tidy_sysChdir (path : Option Path) : Tidy w Pool.NoLocks [] (sysChdir p path) := by
  unfold sysChdir
  split
  · exact fun _ _ _ => rfl
  · apply tidy_namex
    rintro (_ | ⟨ip, _⟩) -
    · exact fun _ _ _ => rfl
    · refine tidy_ilock_first (tidy_aside fun d => ?_)
      split
      · exact tidy_iunlockput_last fun _ _ _ => rfl
      · exact tidy_iunlock_last (tidy_putCwd (tidy_aside fun _ _ _ _ => rfl))

theorem tidy_sysClose (fd : Int) : Tidy w Pool.NoLocks [] (sysClose p fd) := by
  refine tidy_aside fun s => ?_
  split
  · exact fun _ _ _ => rfl
  · exact tidy_aside fun _ => (tidy_fileclose fun _ _ _ => rfl)

theorem tidy_fork (np : Option Slot) : Tidy w Pool.NoLocks [] (fork p np) := by
  unfold fork
  split
  · exact fun _ _ _ => rfl
  · refine tidy_aside fun _ => tidy_silent (fun s hfits _ => dupCwd_mild hfits) fun _ => ?_
    exact tidy_aside fun _ _ _ _ => rfl

theorem tidy_closeFiles {fds : List Files.Fd} {f : PUnit → Code β} (h : Tidy w Q [] (f ⟨⟩)) :
    Tidy w Q [] (closeFiles p fds >>= f) := by
  refine tidy_bind.2 ?_
  induction fds with
  | nil => exact h
  | cons fd fds ih =>
    refine tidy_aside fun s => ?_
    split
    · exact ih
    · exact tidy_fileclose (tidy_aside fun _ => ih)

theorem tidy_exit : Tidy w Pool.NoLocks [] (exit p) :=
  tidy_aside fun _ => tidy_closeFiles
    (tidy_putCwd (tidy_aside fun _ => tidy_aside fun _ _ _ _ => rfl))

theorem tidy_readInode {f : Int → Code β} (h : ∀ r, Tidy w Q [ip] (f r)) :
    Tidy w Q [ip] (readInode ip off n answer >>= f) := by
  refine tidy_bind.2 (tidy_aside fun d => ?_)
  split
  · split
    · exact tidy_iunlock_last (tidy_ilock_first (h answer))
    · exact h _
  · refine tidy_silent (fun s hfits huse => onFs_ends ((readi_same hfits.inv
      (huse ip List.mem_cons_self)).imp fun _ t ht => ?_)) fun _ => h _
    rw [ht]
    exact .refl hfits.inv

theorem tidy_writeInode {f : Int → Code β} (h : ∀ r, Tidy w Q [ip] (f r)) :
    Tidy w Q [ip] (writeInode ip src off n >>= f) := by
  refine tidy_bind.2 (tidy_aside fun d => ?_)
  split
  · split
    · exact tidy_iunlock_last (tidy_ilock_first (h n))
    · exact h _
  · refine tidy_bind.1 (tidy_write (R := fun _ _ => True) List.mem_cons_self
      (fun _ hs hu _ => ?_) h)
    exact (writei_mild hs hu).mono (fun _ _ ht => ⟨ht.1, ht.2, trivial⟩) fun _ _ _ => trivial

theorem tidy_noFile : Tidy w Pool.NoLocks [] (do act (throw .noFile); pure (-1) : Code Int) :=
  tidy_aside fun _ _ _ _ => rfl

theorem tidy_fileread : Tidy w Pool.NoLocks [] (fileread i n answer) := by
  refine tidy_aside fun s => ?_
  split
  · exact fun _ _ _ => rfl
  · split
    · exact fun _ _ _ => rfl
    · refine tidy_ilock_first (tidy_aside fun off => tidy_readInode fun r => ?_)
      exact tidy_aside fun _ => tidy_iunlock_last fun _ _ _ => rfl
    · exact tidy_noFile

theorem tidy_writeRounds {rounds k : Nat} :
    Tidy w Pool.NoLocks [] (writeRounds i ip src n rounds k) := by
  induction rounds generalizing k with
  | zero => exact fun _ _ _ => rfl
  | succ rounds ih =>
    rw [writeRounds]
    split
    · refine tidy_ilock_first (tidy_aside fun off => tidy_writeInode fun r => ?_)
      refine tidy_aside fun _ => tidy_iunlock_last ?_
      split
      · exact fun _ _ _ => rfl
      · exact tidy_aside fun _ => ih
    · exact fun _ _ _ => rfl

theorem tidy_filewrite : Tidy w Pool.NoLocks [] (filewrite i src n answer) := by
  refine tidy_aside fun s => ?_
  split
  · exact fun _ _ _ => rfl
  · split
    · exact fun _ _ _ => rfl
    · exact tidy_writeRounds
    · exact tidy_noFile

theorem tidy_withFile {fd : Int} {body : Files.FileIx → Code Int}
    (h : ∀ i, Tidy w Pool.NoLocks [] (body i)) : Tidy w Pool.NoLocks [] (withFile p fd body) := by
  refine tidy_aside fun s => ?_
  split
  · exact fun _ _ _ => rfl
  · exact h _

theorem tidy_readAll {reads : List (Nat × Nat)} {f : PUnit → Code β} (h : Tidy w Q [ip] (f ⟨⟩)) :
    Tidy w Q [ip] (readAll ip reads >>= f) := by
  refine tidy_bind.2 ?_
  induction reads with
  | nil => exact h
  | cons read reads ih => exact tidy_readInode fun _ => ih

theorem tidy_sysExec (path : Option Path) (reads : List (Nat × Nat)) (answer : Int) :
    Tidy w Pool.NoLocks [] (sysExec p path reads answer) := by
  unfold sysExec
  split
  · exact fun _ _ _ => rfl
  · apply tidy_namex
    rintro (_ | ⟨ip, _⟩) -
    · exact fun _ _ _ => rfl
    · exact tidy_ilock_first (tidy_readAll (tidy_iunlockput_last fun _ _ _ => rfl))

/-- **Every call is orderly**, as a job of the kind that it is. -/
theorem tidy_job (p : Slot) (r : Request) (hplain : r.plain) :
    Tidy (job p r).keeper Pool.NoLocks [] (job p r).script := by
  cases r with
  | call c =>
    cases c with
    | link old new => exact tidy_sysLink hplain
    | unlink path => exact tidy_sysUnlink path
    | mkdir path =>
      cases path with
      | none => exact fun _ _ _ => rfl
      | some path => exact tidy_putCreated
    | mknod path major minor =>
      show Tidy true Pool.NoLocks [] (sysMknod p path major minor)
      unfold sysMknod
      split
      · exact tidy_putCreated
      · exact fun _ _ _ => rfl
    | chdir path => exact tidy_sysChdir path
    | opens path omode => exact tidy_sysOpen path omode id
    | close fd => exact tidy_sysClose fd
    | fork np => exact tidy_fork np
    | exit => exact tidy_exit
  | read fd n answer =>
    refine tidy_withFile fun f => ?_
    cases n with
    | none => exact fun _ _ _ => rfl
    | some n => exact tidy_fileread
  | write fd src n answer =>
    refine tidy_withFile fun f => ?_
    cases n with
    | none => exact fun _ _ _ => rfl
    | some n => exact tidy_filewrite
  | exec path reads answer => exact tidy_sysExec path reads answer

end

/-! ## Deadlocks -/

/-- Two processes in the root directory of the smallest image. -/
def twoUsers : System where
  state :=
    { fs := { blank with mem := Function.update blank.mem ROOTINO { ref := 2 } }
      tables := { Files.boot with alive := fun p => p = 0 ∨ p = 1 }
      cwd := fun p => if p = 0 ∨ p = 1 then some ROOTINO else none }
  lock := fun _ => none
  job := fun _ => none

theorem sound_twoUsers : twoUsers.state.fs.Sound :=
  ⟨sound_blank.laid, sound_blank.coherent.of_one ROOTINO
    (fun hi => by simp [twoUsers, hi]) (fun _ => rfl) fun _ hv => by simp [twoUsers] at hv⟩

/-- `open("a", O_CREATE)`. -/
def openA : Request := .call (.opens (some [97]) (some 512))

instance (s : Fs) (ip : Nat) : Decidable (s.Blank ip) := inferInstanceAs (Decidable (_ ∧ _))

instance (w : Bool) (ip : Nat) (s : Fs) : Decidable (Fit w ip s) :=
  decidable_of_iff (0 < (s.mem ip).ref ∧ ((s.disk.inode ip).type = T_DIR →
    ∀ e ∈ dirents (s.content ip), e.inum = ip → isDots e.name) ∧ (s.Blank ip → w = true))
    ⟨fun h => ⟨h.1, h.2.1, h.2.2⟩, fun h => ⟨h.ref, h.loop, h.blank⟩⟩

/-- The rule, for a run in which only inodes below 8 are locked. -/
def FewRule (s : System) : PoolEvent Slot Request → Prop
  | .start p r => s.Rule terms job (·.plain) (.start p r)
  | .turn p => (∀ l ∈ s.awaited p, l < 8) ∧
      (∀ p, ∀ ip ∈ s.state.cwd p, 0 < (s.state.fs.mem ip).ref) ∧
    ∀ l < 8, ∀ p ∈ s.lock l, ∀ j ∈ s.job p, Fit j.keeper l s.state.fs

instance (s : System) : ∀ e, Decidable (FewRule s e)
  | .start _ _ => inferInstanceAs (Decidable (_ ∧ (_ → _)))
  | .turn _ => inferInstanceAs (Decidable (_ ∧ _ ∧ _))

theorem few_locks {s s' : System} {e : PoolEvent Slot Request} (h : ∀ l, 8 ≤ l → s.lock l = none)
    (hrule : FewRule s e) (hs : Pool.step job s e = some s') (l : Nat) (hl : 8 ≤ l) :
    s'.lock l = none := by
  have hfree := h l hl
  cases e with
  | start p r =>
    simp only [Pool.step] at hs
    split at hs <;> cases hs
    exact hfree
  | turn p =>
    have hask := hrule.1
    simp only [Pool.step, Pool.turn] at hs
    unfold Pool.awaited at hask
    split at hs
    · cases hs
    · cases hs
      exact hfree
    · split at hs <;> cases hs
      exact hfree
    · -- the lock is the one that the process asks for
      rename_i _ lock _ hjob
      simp only [hjob, Option.mem_some_iff, forall_eq'] at hask
      split at hs <;> cases hs
      simp [Function.update_of_ne (show l ≠ lock by omega), hfree]
    · split at hs <;> cases hs
      simp [Function.update_apply, hfree]

end Xv6.Fs
