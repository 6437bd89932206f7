import Xv6.Foundation.Interference
import Xv6.Memory.ThreadLife

/-! # Strings in shared memory

The system calls that take path names check a string in place (`fetchstr` of `syscall.c`) and read
it again, byte by byte, when they look it up (`skipelem` and `namex` of `fs.c`) or copy it (`exec`).
Between any two reads other threads may store to the pages they share with the caller.

A call is a `Prog` that reads bytes of the caller's memory: a `test` is a byte that `fetchstr`
compares with 0, a `read` is a byte of a string that was accepted. What a call does to the file
system has any outcome (`any`). Loops are followed for `fuel` rounds; the results are for every
`fuel`.

* **`accepted_strings_end`** — if no store hits the end of an accepted string, the scans stay
  inside.
* **`accepted_string_runs_on`** — a thread that makes the scan of another one leave its memory. -/

namespace Xv6.Memory

open Foundation

/-! ## Reading strings -/

/-- Kernel code that reads bytes of user memory. -/
abbrev Scan := Prog Nat UInt8

/-- The byte at `va`. -/
def byteAt (va : Nat) : Scan UInt8 := .read va .done

/-- Something succeeds or fails. -/
def succeeds : Scan Bool := .any fun n => .done (n != 0)

/-- A word of user memory, if it is inside. -/
def argWord : Scan (Option Nat) := .any fun n => .done (if n = 0 then none else some (n - 1))

/-- The loop of `fetchstr` on the string at `p`, from `s` on for the `n` bytes that are left. -/
def fetchFrom (p : Nat) : Nat → Nat → Scan (Option Nat)
  | 0, _ => .done none
  | n + 1, s => .test s 0 (.done (some (s - p))) (fetchFrom p n (s + 1))

/-- `fetchstr`, of a process with `sz` bytes: the length of the string at `addr`. -/
def fetchstr (sz addr : Nat) : Scan (Option Nat) :=
  if sz ≤ addr then pure none else fetchFrom addr (sz - addr) addr

/-- `argstr`: the address of the string. -/
def argstr (sz : Nat) : Scan (Option Nat) := do
  match ← argWord with
  | none => pure none
  | some addr => do
    match ← fetchstr sz addr with
    | none => pure none
    | some _ => pure (some addr)

/-- `while(*path == '/') path++`. -/
def skipSlashes : Nat → Nat → Scan Nat
  | 0, _ => .stop
  | n + 1, path => do
    if (← byteAt path) = 47 then skipSlashes n (path + 1) else pure path

/-- `while(*path != '/' && *path != 0) path++`. -/
def skipName : Nat → Nat → Scan Nat
  | 0, _ => .stop
  | n + 1, path => do
    if (← byteAt path) = 47 then pure path
    else do
      if (← byteAt path) = 0 then pure path else skipName n (path + 1)

/-- `memmove` of `n` bytes from `s` on. -/
def copyFrom : Nat → Nat → Scan (List UInt8)
  | 0, _ => pure []
  | n + 1, s => do
    let b ← byteAt s
    let bs ← copyFrom n (s + 1)
    pure (b :: bs)

/-- `strlen(p)`, after `n` bytes. -/
def strlenFrom (p : Nat) : Nat → Nat → Scan Nat
  | 0, _ => .stop
  | k + 1, n => do
    if (← byteAt (p + n)) = 0 then pure n else strlenFrom p k (n + 1)

/-- `skipelem`: the rest of the path and the name of its first element. -/
def skipelem (fuel path : Nat) : Scan (Option (Nat × List UInt8)) := do
  let path ← skipSlashes fuel path
  if (← byteAt path) = 0 then pure none
  else do
    let s := path
    let path ← skipName fuel path
    let name ← copyFrom (min (path - s) DIRSIZ) s
    let path ← skipSlashes fuel path
    pure (some (path, name))

/-- `nameiparent && *path == '\0'`. -/
def isLast (nameiparent : Bool) (path : Nat) : Scan Bool :=
  if nameiparent then do
    let b ← byteAt path
    pure (b == 0)
  else pure false

/-- The loop of `namex`: whether it returns an inode. -/
def namexLoop (fuel : Nat) (nameiparent : Bool) : Nat → Nat → Scan Bool
  | 0, _ => .stop
  | n + 1, path => do
    match ← skipelem fuel path with
    | none => pure !nameiparent
    | some (path, _) => do
      -- the inode is locked; it may be no directory
      let isDir ← succeeds
      if isDir then do
        let last ← isLast nameiparent path
        if last then pure true
        else do
          -- `dirlookup`
          let found ← succeeds
          if found then namexLoop fuel nameiparent n path else pure false
      else pure false

/-- `namex`. -/
def namex (fuel path : Nat) (nameiparent : Bool) : Scan Bool := do
  let _ ← byteAt path
  namexLoop fuel nameiparent fuel path

/-! ## The system calls -/

variable (sz fuel : Nat)

/-- `sys_open`. -/
def sysOpen : Scan Unit := do
  match ← argstr sz with
  | none => pure ()
  | some path => do
    match ← argWord with
    | none => pure ()
    | some _ => do
      -- whether `omode` has `O_CREATE`
      let create ← succeeds
      let _ ← namex fuel path create

/-- `sys_link`. -/
def sysLink : Scan Unit := do
  match ← argstr sz with
  | none => pure ()
  | some old => do
    match ← argstr sz with
    | none => pure ()
    | some new => do
      if ← namex fuel old false then do
        -- the inode may be a directory
        if ← succeeds then do
          let _ ← namex fuel new true
        else pure ()
      else pure ()

/-- A call with one path, which is looked up itself or its parent. -/
def sysPath (nameiparent : Bool) : Scan Unit := do
  match ← argstr sz with
  | none => pure ()
  | some path => do
    let _ ← namex fuel path nameiparent

/-- `sys_unlink`. -/
def sysUnlink : Scan Unit := sysPath sz fuel true

/-- `sys_mkdir`. -/
def sysMkdir : Scan Unit := sysPath sz fuel true

/-- `sys_chdir`. -/
def sysChdir : Scan Unit := sysPath sz fuel false

/-- `sys_mknod`, which has two more arguments. -/
def sysMknod : Scan Unit := do
  match ← argstr sz with
  | none => pure ()
  | some path => do
    match ← argWord with
    | none => pure ()
    | some _ => do
      match ← argWord with
      | none => pure ()
      | some _ => do
        let _ ← namex fuel path true

/-- The loop of `sys_exec` over the arguments, with room for `n` more. -/
def fetchArgs : Nat → Scan (Option (List Nat))
  | 0 => pure none
  | n + 1 => do
    match ← argWord with
    | none => pure none
    | some 0 => pure (some [])
    | some uarg => do
      match ← fetchstr sz uarg with
      | none => pure none
      | some _ => do
        match ← fetchArgs n with
        | none => pure none
        | some args => pure (some (uarg :: args))

/-- The loop of `exec` that copies the arguments: whether it comes to its end. -/
def copyArgs : List Nat → Scan Bool
  | [] => pure true
  | arg :: args => do
    let _ ← strlenFrom arg fuel 0
    let n ← strlenFrom arg fuel 0
    let _ ← copyFrom (n + 1) arg
    -- `copyout` may fail
    if ← succeeds then copyArgs args else pure false

/-- `for(last=s=path; *s; s++) if(*s == '/') last = s+1`: the value of `last`. -/
def lastElem : Nat → Nat → Nat → Scan Nat
  | 0, _, _ => .stop
  | n + 1, last, s => do
    if (← byteAt s) = 0 then pure last
    else do
      if (← byteAt s) = 47 then lastElem n (s + 1) (s + 1) else lastElem n last (s + 1)

/-- `safestrcpy`, for `n` bytes at most. -/
def safestrcpy : Nat → Nat → Scan (List UInt8)
  | 0, _ => pure []
  | n + 1, t => do
    let b ← byteAt t
    if b = 0 then pure [] else do
      let bs ← safestrcpy n (t + 1)
      pure (b :: bs)

/-- `sys_exec`, with the part of `exec` that reads strings. -/
def sysExec : Scan Unit := do
  match ← argstr sz with
  | none => pure ()
  | some path => do
    match ← fetchArgs sz MAXARG with
    | none => pure ()
    | some args => do
      if ← namex fuel path false then do
        -- the program is loaded
        if ← succeeds then do
          if ← copyArgs fuel args then do
            if ← succeeds then do
              let last ← lastElem fuel path path
              let _ ← safestrcpy 15 last
            else pure ()
          else pure ()
        else pure ()
      else pure ()

/-- The system calls that take path names. -/
inductive PathCall
  | open | link | unlink | mkdir | mknod | chdir | exec

/-- The code of a call. -/
def PathCall.code : PathCall → Scan Unit
  | .open => sysOpen sz fuel
  | .link => sysLink sz fuel
  | .unlink => sysUnlink sz fuel
  | .mkdir => sysMkdir sz fuel
  | .mknod => sysMknod sz fuel
  | .chdir => sysChdir sz fuel
  | .exec => sysExec sz fuel

/-! ## Scans stay before the end -/

/-- A string at `va` has an accepted end behind it. -/
def HasEnd (F : Prog.Facts Nat UInt8) (va : Nat) : Prop := ∃ a, (a, 0) ∈ F ∧ va ≤ a

section

variable {sz fuel} {F : Prog.Facts Nat UInt8} {a p n : Nat}

/-- What is to be shown of code that reads strings. -/
abbrev Good {α : Type} (sz : Nat) (m : Scan α) (F : Prog.Facts Nat UInt8)
    (Q : α → Prog.Facts Nat UInt8 → Prop) : Prop := m.Safe (fun a b => a < sz ∧ b = 0) HasEnd Q F

theorem good_byteAt {Q : UInt8 → Prog.Facts Nat UInt8 → Prop} (ha : (a, 0) ∈ F) (hp : p ≤ a)
    (h : ∀ b, (b ≠ 0 → p < a) → Q b F) : Good sz (byteAt p) F Q := by
  refine ⟨⟨a, ha, hp⟩, fun b hb => h b fun hne => ?_⟩
  refine lt_of_le_of_ne hp ?_
  rintro rfl
  exact hne (hb 0 ha)

theorem good_succeeds {Q : Bool → Prog.Facts Nat UInt8 → Prop} (h : ∀ b, Q b F) :
    Good sz succeeds F Q := fun _ => h _

theorem good_argWord {Q : Option Nat → Prog.Facts Nat UInt8 → Prop} (h : ∀ w, Q w F) :
    Good sz argWord F Q := fun _ => h _

section

variable (ha : (a, 0) ∈ F)

include ha

theorem good_skipSlashes (hp : p ≤ a) :
    Good sz (skipSlashes n p) F (fun q F' => F' = F ∧ q ≤ a) := by
  induction n generalizing p with
  | zero => trivial
  | succ n ih =>
    simp only [skipSlashes, Good, Prog.safe_bind]
    refine good_byteAt ha hp fun b hb => ?_
    split
    · rename_i hslash
      exact ih (hb (by rw [hslash]; decide))
    · exact ⟨rfl, hp⟩

theorem good_skipName (hp : p ≤ a) :
    Good sz (skipName n p) F (fun q F' => F' = F ∧ p ≤ q ∧ q ≤ a) := by
  induction n generalizing p with
  | zero => trivial
  | succ n ih =>
    simp only [skipName, Good, Prog.safe_bind]
    refine good_byteAt ha hp fun b _ => ?_
    split
    · exact ⟨rfl, le_rfl, hp⟩
    · simp only [Prog.safe_bind]
      refine good_byteAt ha hp fun b hb => ?_
      split
      · exact ⟨rfl, le_rfl, hp⟩
      · rename_i hne
        refine (ih (hb hne)).mono ?_
        rintro q _ ⟨rfl, hle, hq⟩
        exact ⟨rfl, (Nat.le_succ p).trans hle, hq⟩

theorem good_copyFrom (hn : p + n ≤ a + 1) :
    Good sz (copyFrom n p) F (fun _ F' => F' = F) := by
  induction n generalizing p with
  | zero => rfl
  | succ n ih =>
    simp only [copyFrom, Good, Prog.safe_bind]
    refine good_byteAt ha (by omega) fun b _ => ?_
    refine (ih (by omega)).mono ?_
    rintro _ _ rfl
    rfl

theorem good_strlenFrom {k : Nat} (hn : p + n ≤ a) :
    Good sz (strlenFrom p k n) F (fun len F' => F' = F ∧ p + len ≤ a) := by
  induction k generalizing n with
  | zero => trivial
  | succ k ih =>
    simp only [strlenFrom, Good, Prog.safe_bind]
    refine good_byteAt ha hn fun b hb => ?_
    split
    · exact ⟨rfl, hn⟩
    · rename_i hne
      exact ih (hb hne)

theorem good_skipelem (hp : p ≤ a) :
    Good sz (skipelem fuel p) F (fun r F' => F' = F ∧ ∀ q name, r = some (q, name) → q ≤ a) := by
  simp only [skipelem, Good, Prog.safe_bind]
  refine (good_skipSlashes ha hp).mono ?_
  rintro s _ ⟨rfl, hs⟩
  refine good_byteAt ha hs fun b _ => ?_
  split
  · exact ⟨rfl, by simp⟩
  · simp only [Prog.safe_bind]
    refine (good_skipName ha hs).mono ?_
    rintro q _ ⟨rfl, hle, hq⟩
    refine (good_copyFrom ha (by omega)).mono ?_
    rintro name _ rfl
    refine (good_skipSlashes ha hq).mono ?_
    rintro r _ ⟨rfl, hr⟩
    refine ⟨rfl, fun q' name' heq => ?_⟩
    obtain ⟨rfl, -⟩ := Prod.mk.inj (Option.some.inj heq)
    exact hr

theorem good_isLast {parent : Bool} (hp : p ≤ a) :
    Good sz (isLast parent p) F (fun _ F' => F' = F) := by
  unfold isLast
  split
  · simp only [Good, Prog.safe_bind]
    exact good_byteAt ha hp fun _ _ => rfl
  · rfl

theorem good_namexLoop {parent : Bool} (hp : p ≤ a) :
    Good sz (namexLoop fuel parent n p) F (fun _ F' => F' = F) := by
  induction n generalizing p with
  | zero => trivial
  | succ n ih =>
    simp only [namexLoop, Good, Prog.safe_bind]
    refine (good_skipelem ha hp).mono ?_
    rintro (_ | ⟨q, name⟩) _ ⟨rfl, hq⟩
    · rfl
    have hq := hq q name rfl
    simp only [Prog.safe_bind]
    refine good_succeeds fun isDir => ?_
    split
    · simp only [Prog.safe_bind]
      refine (good_isLast ha hq).mono ?_
      rintro last _ rfl
      split
      · rfl
      · simp only [Prog.safe_bind]
        refine good_succeeds fun found => ?_
        split
        · exact ih hq
        · rfl
    · rfl

end

theorem good_namex {parent : Bool} (ha : HasEnd F p) :
    Good sz (namex fuel p parent) F (fun _ F' => F' = F) := by
  obtain ⟨a, ha, hp⟩ := ha
  simp only [namex, Good, Prog.safe_bind]
  exact good_byteAt ha hp fun _ _ => good_namexLoop ha hp

/-! ## Accepting strings -/

theorem good_fetchFrom {s : Nat} (hs : s + n = sz) (hp : p ≤ s) :
    Good sz (fetchFrom p n s) F (fun r F' => (∀ f ∈ F, f ∈ F') ∧ (r ≠ none → HasEnd F' p)) := by
  induction n generalizing s with
  | zero => exact ⟨fun _ h => h, fun h => absurd rfl h⟩
  | succ n ih =>
    refine ⟨⟨by omega, rfl⟩, ?_, ih (by omega) (by omega)⟩
    exact ⟨fun f hf => List.mem_cons_of_mem _ hf, fun _ => ⟨s, List.mem_cons_self, hp⟩⟩

theorem good_fetchstr :
    Good sz (fetchstr sz p) F (fun r F' => (∀ f ∈ F, f ∈ F') ∧ (r ≠ none → HasEnd F' p)) := by
  unfold fetchstr
  split
  · exact ⟨fun _ h => h, fun h => absurd rfl h⟩
  · exact good_fetchFrom (by omega) le_rfl

theorem HasEnd.mono {F' : Prog.Facts Nat UInt8} (h : HasEnd F p) (hF : ∀ f ∈ F, f ∈ F') :
    HasEnd F' p := by
  obtain ⟨a, ha, hp⟩ := h
  exact ⟨a, hF _ ha, hp⟩

theorem good_argstr : Good sz (argstr sz) F (fun r F' => (∀ f ∈ F, f ∈ F') ∧
    ∀ p, r = some p → HasEnd F' p) := by
  simp only [argstr, Good, Prog.safe_bind]
  refine good_argWord fun w => ?_
  rcases w with _ | addr
  · exact ⟨fun _ h => h, by simp⟩
  · simp only [Prog.safe_bind]
    refine good_fetchstr.mono ?_
    rintro (_ | len) F' ⟨hF, hend⟩
    · exact ⟨hF, by simp⟩
    · refine ⟨hF, fun p hp => ?_⟩
      cases hp
      exact hend (by simp)

theorem good_fetchArgs : Good sz (fetchArgs sz n) F (fun r F' => (∀ f ∈ F, f ∈ F') ∧
    ∀ args, r = some args → ∀ p ∈ args, HasEnd F' p) := by
  induction n generalizing F with
  | zero => exact ⟨fun _ h => h, by simp⟩
  | succ n ih =>
    simp only [fetchArgs, Good, Prog.safe_bind]
    refine good_argWord fun w => ?_
    rcases w with _ | _ | w
    · exact ⟨fun _ h => h, by simp⟩
    · refine ⟨fun _ h => h, fun args hargs => ?_⟩
      cases hargs
      simp
    simp only [Prog.safe_bind]
    refine good_fetchstr.mono ?_
    rintro (_ | len) F1 ⟨hF1, hend⟩
    · exact ⟨hF1, by simp⟩
    simp only [Prog.safe_bind]
    refine ih.mono ?_
    rintro (_ | args) F2 ⟨hF2, hargs⟩
    · exact ⟨fun f hf => hF2 f (hF1 f hf), by simp⟩
    refine ⟨fun f hf => hF2 f (hF1 f hf), fun args' heq p hp => ?_⟩
    cases heq
    rcases List.mem_cons.1 hp with rfl | hp
    · exact (hend (by simp)).mono hF2
    · exact hargs args rfl p hp

theorem good_copyArgs {args : List Nat} (h : ∀ p ∈ args, HasEnd F p) :
    Good sz (copyArgs fuel args) F (fun _ F' => F' = F) := by
  induction args with
  | nil => rfl
  | cons arg args ih =>
    obtain ⟨a, ha, hp⟩ := h arg List.mem_cons_self
    simp only [copyArgs, Good, Prog.safe_bind]
    refine (good_strlenFrom ha hp).mono ?_
    rintro _ _ ⟨rfl, -⟩
    refine (good_strlenFrom ha hp).mono ?_
    rintro len _ ⟨rfl, hlen⟩
    refine (good_copyFrom ha (by omega)).mono ?_
    rintro _ _ rfl
    refine good_succeeds fun b => ?_
    split
    · exact ih fun p hp => h p (List.mem_cons_of_mem _ hp)
    · rfl

theorem good_lastElem {last s : Nat} (ha : (a, 0) ∈ F) (hlast : last ≤ a) (hs : s ≤ a) :
    Good sz (lastElem n last s) F (fun q F' => F' = F ∧ q ≤ a) := by
  induction n generalizing last s with
  | zero => trivial
  | succ n ih =>
    simp only [lastElem, Good, Prog.safe_bind]
    refine good_byteAt ha hs fun b hb => ?_
    split
    · exact ⟨rfl, hlast⟩
    · rename_i hne
      have hlt := hb hne
      simp only [Prog.safe_bind]
      refine good_byteAt ha hs fun b _ => ?_
      split
      · exact ih hlt hlt
      · exact ih hlast hlt

theorem good_safestrcpy (ha : (a, 0) ∈ F) (hp : p ≤ a) :
    Good sz (safestrcpy n p) F (fun _ F' => F' = F) := by
  induction n generalizing p with
  | zero => rfl
  | succ n ih =>
    simp only [safestrcpy, Good, Prog.safe_bind]
    refine good_byteAt ha hp fun b hb => ?_
    split
    · rfl
    · rename_i hne
      simp only [Prog.safe_bind]
      refine (ih (hb hne)).mono ?_
      rintro _ _ rfl
      rfl

end

/-! ## Every call -/

section

variable {sz fuel} {F : Prog.Facts Nat UInt8}

theorem good_with_argstr {k : Nat → Scan Unit}
    (h : ∀ p F', (∀ f ∈ F, f ∈ F') → HasEnd F' p → Good sz (k p) F' fun _ _ => True) :
    Good sz (argstr sz >>= fun | none => pure () | some p => k p) F fun _ _ => True := by
  simp only [Good, Prog.safe_bind]
  refine good_argstr.mono ?_
  rintro (_ | p) F' ⟨hF, hend⟩
  · trivial
  · exact h p F' hF (hend p rfl)

theorem good_namex_only {parent : Bool} {p : Nat} (h : HasEnd F p) :
    Good sz (do let _ ← namex fuel p parent) F fun _ _ => True := by
  simp only [Good, Prog.safe_bind]
  exact (good_namex h).mono fun _ _ _ => trivial

theorem good_sysPath {parent : Bool} : Good sz (sysPath sz fuel parent) F fun _ _ => True :=
  good_with_argstr fun _ _ _ hend => good_namex_only hend

theorem good_sysOpen : Good sz (sysOpen sz fuel) F fun _ _ => True := by
  refine good_with_argstr fun p F' _ hend => ?_
  simp only [Good, Prog.safe_bind]
  refine good_argWord fun w => ?_
  rcases w with _ | w
  · trivial
  · simp only [Prog.safe_bind]
    exact good_succeeds fun _ => (good_namex hend).mono fun _ _ _ => trivial

theorem good_sysMknod : Good sz (sysMknod sz fuel) F fun _ _ => True := by
  refine good_with_argstr fun p F' _ hend => ?_
  simp only [Good, Prog.safe_bind]
  refine good_argWord fun w => ?_
  rcases w with _ | w
  · trivial
  · simp only [Prog.safe_bind]
    refine good_argWord fun w => ?_
    rcases w with _ | w
    · trivial
    · exact good_namex_only hend

theorem good_sysLink : Good sz (sysLink sz fuel) F fun _ _ => True := by
  refine good_with_argstr fun old F1 _ hold => ?_
  refine good_with_argstr fun new F2 hF2 hnew => ?_
  simp only [Good, Prog.safe_bind]
  refine (good_namex (hold.mono hF2)).mono ?_
  rintro found _ rfl
  split
  · simp only [Prog.safe_bind]
    refine good_succeeds fun b => ?_
    split
    · exact good_namex_only hnew
    · trivial
  · trivial

theorem good_sysExec : Good sz (sysExec sz fuel) F fun _ _ => True := by
  refine good_with_argstr fun path F1 _ hpath => ?_
  simp only [Good, Prog.safe_bind]
  refine good_fetchArgs.mono ?_
  rintro (_ | args) F2 ⟨hF2, hargs⟩
  · trivial
  have hargs := hargs args rfl
  have hpath := hpath.mono hF2
  simp only [Prog.safe_bind]
  refine (good_namex hpath).mono ?_
  rintro found _ rfl
  split
  · simp only [Prog.safe_bind]
    refine good_succeeds fun loaded => ?_
    split
    · simp only [Prog.safe_bind]
      refine (good_copyArgs hargs).mono ?_
      rintro copied _ rfl
      split
      · simp only [Prog.safe_bind]
        refine good_succeeds fun b => ?_
        split
        · obtain ⟨a, ha, hp⟩ := hpath
          simp only [Prog.safe_bind]
          refine (good_lastElem ha hp hp).mono ?_
          rintro last _ ⟨rfl, hlast⟩
          exact (good_safestrcpy ha hlast).mono fun _ _ _ => trivial
        · trivial
      · trivial
    · trivial
  · trivial

/-- **Every call** reads a string only before an end that was accepted. -/
theorem good_call (call : PathCall) : Good sz (call.code sz fuel) F fun _ _ => True := by
  cases call with
  | «open» => exact good_sysOpen
  | link => exact good_sysLink
  | unlink | mkdir | chdir => exact good_sysPath
  | mknod => exact good_sysMknod
  | exec => exact good_sysExec

end

/-! ## The call among other threads -/

namespace Machine

variable (L : Layout) (me : Slot)

/-- The byte that the kernel reads at `va` in the address space of the process `me`. -/
def byteOfUser (s : Machine) (va : Nat) : Option UInt8 :=
  (s.mem.frameAt (s.kernel.proc me).pgdir va).map fun (f, _) => (s.mem.page f).byte (va % PGSIZE)

/-- What happens while `me` is in its call: the scheduler runs, and user code of other processes
stores bytes. -/
def Others (s : Machine) (e : Machine.Event) : Prop :=
  match e.1 with
  | .table _ | .setEsp _ _ => True
  | .store c _ _ => s.kernel.cpu c ≠ some me
  | _ => False

instance (s : Machine) (e : Machine.Event) : Decidable (s.Others me e) := by
  obtain ⟨a, w⟩ := e
  cases a with
  | table | setEsp => exact isTrue trivial
  | store c => exact inferInstanceAs (Decidable (s.kernel.cpu c ≠ some me))
  | _ => exact isFalse not_false

/-- A step of the others. -/
def otherStep (s : Machine) (e : Machine.Event) : Option Machine :=
  if s.Others me e then s.step L e else none

/-- The byte at `va` in the address space of the process `q` is the one that `me` has at `a`. -/
def SameCell (s : Machine) (q : Slot) (va a : Nat) : Prop :=
  (s.mem.frameAt (s.kernel.proc me).pgdir a).map Prod.fst =
    some (s.mem.pte (s.kernel.proc q).pgdir (va / PGSIZE)).ppn ∧ va % PGSIZE = a % PGSIZE

instance (s : Machine) (q : Slot) (va a : Nat) : Decidable (s.SameCell me q va a) :=
  inferInstanceAs (Decidable (_ ∧ _))

variable {L me}

theorem Others.quiet {s : Machine} {e : Machine.Event} (h : s.Others me e) : s.Quiet e := by
  obtain ⟨a, r⟩ := e
  cases a <;> first | exact h.elim | trivial

/-- **What a step of the others does to memory**: nothing, unless it is a store, which changes one
byte. -/
theorem Others.byte {s s' : Machine} {e : Machine.Event} (h : s.Others me e)
    (hs : s.step L e = some s') (f i : Nat) : (s'.mem.page f).byte i = (s.mem.page f).byte i ∨
      ∃ c va b r q, e = (.store c va b, r) ∧ s.kernel.cpu c = some q ∧
        f = (s.mem.pte (s.kernel.proc q).pgdir (va / PGSIZE)).ppn ∧ i = va % PGSIZE ∧
        (s'.mem.page f).byte i = b := by
  obtain ⟨a, r⟩ := e
  have hret := Machine.step_returns L hs
  cases a with
  | table e =>
    left
    have hends : Ends (Action.code L (.table e)) (s.start r) (fun _ s' => s'.mem.page = s.mem.page)
        (Calm False False) := by
      dsimp only [Action.code]
      split
      · exact tableStep_ends fun _ _ => rfl
      · exact calm_disabled _ _ s
    rw [hends.of_returns hret]
  | setEsp c esp =>
    left
    have hends : Ends (Action.code L (.setEsp c esp)) (s.start r)
        (fun _ s' => s'.mem.page = s.mem.page) (Calm False False) := by
      simp only [Action.code, ends_bind]
      exact caller_ends fun _ _ _ => rfl
    rw [hends.of_returns hret]
  | store c va b =>
    have hends : Ends (userStore c va b) (s.start r) (fun _ s' => ∃ q, s.kernel.cpu c = some q ∧
        ∃ bs, s.mem.page (s.mem.pte (s.kernel.proc q).pgdir (va / PGSIZE)).ppn = .data bs ∧
          s'.mem.page = put s.mem.page (s.mem.pte (s.kernel.proc q).pgdir (va / PGSIZE)).ppn
            (.data (put bs (va % PGSIZE) b))) (Calm False False) := by
      simp only [userStore, ends_bind]
      refine caller_ends fun q hq _ => ?_
      simp only [ends_procOf, ends_get, ends_stopIf, ends_onMem]
      refine ⟨fun _ => calm_disabled _ _ s, fun _ => ?_⟩
      simp only [pokeByte, ends_bind, ends_get]
      split
      · exact ⟨q, hq, _, by assumption, rfl⟩
      · exact fun h => h.elim
    obtain ⟨q, hq, bs, hbs, hpage⟩ := hends.of_returns hret
    rw [hpage]
    by_cases hf : f = (s.mem.pte (s.kernel.proc q).pgdir (va / PGSIZE)).ppn
    · rw [hf, put_self, hbs]
      by_cases hi : i = va % PGSIZE
      · exact .inr ⟨c, va, b, r, q, rfl, hq, rfl, hi, by simp [Page.byte, hi]⟩
      · left
        simp [Page.byte, put_of_ne hi]
    · left
      rw [put_of_ne hf]
  | _ => exact h.elim

end Machine

/-- The process `me` in a call that takes path names, and the machine around it. -/
abbrev Calling := Shared Machine Nat UInt8 Unit

namespace Calling

variable (L : Layout) (me : Slot)

/-- **One step**: of the call, or of the others. -/
def step : Calling → Turn Machine.Event → Option Calling :=
  Shared.step (Machine.byteOfUser me) (Machine.otherStep L me)

/-- The start of a call. -/
def start (call : PathCall) (fuel : Nat) (s : Machine) : Calling :=
  ⟨s, [], call.code (s.kernel.proc me).sz fuel⟩

/-- **The condition on the other threads**: no store puts anything but 0 on the end of a string that
`argstr` has accepted. -/
def Spares (s : Calling) : Turn Machine.Event → Prop
  | .theirs (.store c va b, _) => b = 0 ∨ ∀ q, s.env.kernel.cpu c = some q →
      ∀ f ∈ s.facts, ¬ s.env.SameCell me q va f.1
  | _ => True

instance (s : Calling) (t : Turn Machine.Event) : Decidable (s.Spares me t) := by
  unfold Spares
  split <;> infer_instance

/-- **The string ends inside**: when the call is about to read a byte of an accepted string, a NUL
byte is still there or behind it, below `sz`. -/
def EndsInside (s : Calling) : Prop :=
  ∀ va k, s.prog = .read va k →
    ∃ a, va ≤ a ∧ a < (s.env.kernel.proc me).sz ∧ s.env.byteOfUser me a = some 0

end Calling

/-- **The strings that were accepted stay strings**, whatever the call and however the other threads
run, as long as they spare their ends. -/
theorem accepted_strings_end (L : Layout) {me : Slot} {call : PathCall} {fuel : Nat} {s0 : Machine}
    {s : Calling} (hwf : s0.kernel.Wf)
    (hrun : Run (Calling.step L me) (Calling.Spares me) (Calling.start me call fuel s0) s) :
    s.EndsInside me := by
  let sz := (s0.kernel.proc me).sz
  have hok : Shared.Ok (Machine.byteOfUser me) (fun a b => a < sz ∧ b = 0) HasEnd (fun _ _ => True)
      (fun env => env.kernel.Wf ∧ (env.kernel.proc me).sz = sz) s := by
    apply Shared.safe _ _ _ hrun
    · exact ⟨⟨hwf, rfl⟩, by simp [Calling.start], good_call call⟩
    · rintro env e env' ⟨hwf, hsz⟩ hs
      unfold Machine.otherStep at hs
      split at hs
      · have hstill := still_step L hwf (Machine.Others.quiet ‹_›) hs
        exact ⟨hstill.wf, (hstill.sz me).trans hsz⟩
      · cases hs
    · rintro ⟨env, F, m⟩ e env' ⟨hwf, -⟩ hg hs a v ha ⟨-, rfl⟩ hv
      unfold Machine.otherStep at hs
      split at hs
      swap
      · cases hs
      rename_i hothers
      have hstill := still_step L hwf hothers.quiet hs
      unfold Machine.byteOfUser at hv ⊢
      rw [hstill.pgdir, hstill.mem.frameAt]
      obtain ⟨⟨f, w⟩, hf, hbyte⟩ := Option.map_eq_some_iff.1 hv
      rw [hf, Option.map_some, Option.some.injEq]
      rcases hothers.byte hs f (a % PGSIZE) with hsame | ⟨c, va, b, r, q, rfl, hq, hfq, hva, hnew⟩
      · exact hsame.trans hbyte
      · -- a store to the end of the string puts 0 there
        rcases hg with rfl | hspare
        · exact hnew
        · refine absurd ⟨?_, hva.symm⟩ (hspare q hq (a, 0) ha)
          rw [hf, Option.map_some, hfq]
  intro va k hprog
  have hsafe := hok.safe
  rw [hprog] at hsafe
  obtain ⟨a, ha, hle⟩ := hsafe.1
  obtain ⟨hlt, hval⟩ := hok.facts a 0 ha
  exact ⟨a, hle, hok.inv.2.symm ▸ hlt.1, hval⟩

/-- The first process makes another one, puts `"a"` at the end of its only page and leaves the CPU
to the process in slot 1. -/
def pathSetup (make : List Machine.Event) : List Machine.Event :=
  [(.userinit, []), (.table (.dispatch 0 0), [])] ++ make ++
    [(.store 0 4094 97, []), (.table (.call 0 .yield), []), (.table (.dispatch 0 1), [])]

/-- A call with the string at 4094: it is accepted, the other process takes a step, and seven more
bytes are read. -/
def pathTurns (other : Action) : List (Turn Machine.Event) :=
  [.ours 4095, .ours 0, .ours 0, .theirs (other, []), .ours 0, .ours 0, .ours 0, .ours 0, .ours 0,
    .ours 0, .ours 0]

/-- The call is about to read the byte at `va`. -/
def Calling.reads (s : Calling) (va : Nat) : Bool :=
  match s.prog with
  | .read x _ => x == va
  | _ => false

theorem Calling.exists_read {s : Calling} {va : Nat} (h : s.reads va = true) :
    ∃ k, s.prog = .read va k := by
  unfold Calling.reads at h
  split at h
  · rename_i x k hprog
    obtain rfl := beq_iff_eq.1 h
    exact ⟨k, hprog⟩
  · cases h

/-- A child of the caller stores into its own memory while the caller is in `unlink`. -/
theorem accepted_strings_end_beside_child : ∃ s0 s : _, s0.kernel.Wf ∧
    Run (Calling.step smallLayout 0) (Calling.Spares 0) (Calling.start 0 .unlink 10 s0) s ∧
      (∃ k, s.prog = .read 4094 k) ∧ s.EndsInside 0 := by
  obtain ⟨s0, -, hok, hs0⟩ := exists_ok_of_runs (pathSetup [(.fork 0, [])])
    (fun s0 => (runs (Calling.step smallLayout 0) (Calling.Spares 0) (Calling.start 0 .unlink 10 s0)
      (pathTurns (.store 0 4095 98))).map (·.reads 4094) = some true) (by decide +kernel)
  obtain ⟨s, hrun, hs⟩ := exists_run_of_runs _ _ _ _ _ (of_decide_eq_true hs0)
  exact ⟨s0, s, hok.wf, hrun, Calling.exists_read hs, accepted_strings_end smallLayout hok.wf hrun⟩

/-- **An accepted string that runs on.** A thread shares the caller's only page and writes over the
NUL byte after `argstr` has found it: the caller reads on at 4096, where its memory ends. -/
theorem accepted_string_runs_on : ∃ s0, Reachable (Machine.step smallLayout) smallBoot s0 ∧
    ∃ s, Reachable (Calling.step smallLayout 0) (Calling.start 0 .unlink 10 s0) s ∧
      ¬ s.EndsInside 0 := by
  obtain ⟨s0, hrun0, hs0⟩ := exists_run_of_runs (Machine.step smallLayout)
      (fun _ _ => True) smallBoot
    (pathSetup [(.setEsp 0 100, []), (.threadCreate 0 (KERNBASE + 4092), [])])
    (fun s0 => (runs (Calling.step smallLayout 0) (fun _ _ => True) (Calling.start 0 .unlink 10 s0)
      (pathTurns (.store 0 4095 98))).map
        (fun s => s.reads 4096 && (s.env.kernel.proc 0).sz == 4096) = some true) (by decide +kernel)
  obtain ⟨s, hrun, hs⟩ := exists_run_of_runs _ _ _ _ _ (of_decide_eq_true hs0)
  rw [Bool.and_eq_true, beq_iff_eq] at hs
  obtain ⟨k, hk⟩ := Calling.exists_read hs.1
  refine ⟨s0, hrun0, s, hrun, fun hinside => ?_⟩
  obtain ⟨a, hle, hlt, -⟩ := hinside 4096 k hk
  omega

end Xv6.Memory
