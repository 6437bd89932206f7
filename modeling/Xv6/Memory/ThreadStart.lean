import Xv6.Memory.ThreadFrame

/-! # The start of a thread

`thread_creator` of `sthread.c` as one piece of code: it gets a page, writes the frame to it,
detaches it and makes a thread of it. The string that the argument points to is given by its bytes;
where it lies in the memory of the caller does not matter.

* **`thread_starts_iff`** — when the new thread runs the function with its argument.
* **`thread_starts_wrong`** — a thread that does not find its argument. -/

namespace Xv6.Memory

open Foundation

variable (L : Layout)

/-! ## The library function -/

/-- User code stores bytes from the address `va` on. -/
def userStores (c : Nat) : Nat → List UInt8 → Sys Unit
  | _, [] => pure ()
  | va, b :: bs => do
    userStore c va b
    userStores c (va + 1) bs

/-- The value that the last system call on CPU `c` has returned. -/
def userEax (c : Nat) : Sys Nat := do
  return (← procOf (← caller c)).tf.eax

/-- The copy of the argument of `thread_creator` on the new stack: the stack pointer below it and
the words of `ustack`. -/
def copyArg (c stack fn ttrap : Nat) : Option (List UInt8) → Sys (Nat × List Nat)
  | none => pure (uint32 (stack + PGSIZE), [fn, ttrap, 0])
  | some str => do
    let sp := uint32 ((uint32 (stack + PGSIZE) : Int) - (str.length + 1)) / 4 * 4
    userStores c sp (str ++ [0])
    pure (sp, [fn, ttrap, sp, 0])

/-- The part of `thread_creator` that writes the page at `stack`: the stack pointer at its end. -/
def writeFrame (c stack fn ttrap : Nat) (arg : Option (List UInt8)) : Sys Nat := do
  let (top, ustack) ← copyArg c stack fn ttrap arg
  let sp := uint32 ((top : Int) - ustack.length * 4)
  userStores c sp (wordBytes ustack)
  pure sp

/-- `thread_creator(fn, arg)`, of the process running on CPU `c`. -/
def threadCreator (c fn ttrap : Nat) (arg : Option (List UInt8)) : Sys Unit := do
  Memory.getpage c
  let stack ← userEax c
  let sp ← writeFrame c stack fn ttrap arg
  Memory.detachpage c stack
  let page ← userEax c
  sysThreadCreate L c (uint32 (page + ((sp : Int) - stack)))

/-! ## What a thread should find -/

/-- The byte that user code reads at `va` while the page directory `d` is in use. -/
def Mem.userByte (m : Mem) (d va : Nat) : Option UInt8 :=
  let e := m.pte d (va / PGSIZE)
  if va / PGSIZE < UPAGES ∧ e.p ∧ e.u then some ((m.page e.ppn).byte (va % PGSIZE)) else none

/-- **The thread `np` starts as it should**: it runs the function, which will return to `ttrap`, and
the argument of the function is `0` or leads to the string, inside the page of its own stack. -/
structure Machine.Starts (s : Machine) (np : Slot) (fn ttrap : Nat) (arg : Option (List UInt8)) :
    Prop where
  eip : (s.kernel.proc np).tf.eip = fn
  ret : Holds (s.mem.userByte (s.kernel.proc np).pgdir) (s.kernel.proc np).tf.esp
    (wordBytes [ttrap])
  arg : HasArg (s.mem.userByte (s.kernel.proc np).pgdir) ((s.kernel.proc np).tf.esp + 4)
    ((s.kernel.proc np).sz - PGSIZE) arg

/-- The page at address 0 of the directory `d` holds the frame already. -/
def Mem.HoldsFrame (m : Mem) (d fn ttrap : Nat) (arg : Option (List UInt8)) : Prop :=
  Holds (m.userByte d) (startOffset arg) (wordBytes [fn]) ∧
    Holds (m.userByte d) (startOffset arg + 4) (wordBytes [ttrap]) ∧
    HasArg (m.userByte d) (startOffset arg + 8) 0 arg

/-- **The condition for a thread to start well** when `cur` calls `thread_creator`. With the stack
of the caller in its first page, that page is shared and nothing is moved to it; otherwise the
frame, written over the free page that comes next, has to survive being moved to the stack. -/
def Machine.StartsWell (s : Machine) (cur : Slot) (fn ttrap : Nat) (arg : Option (List UInt8)) :
    Prop :=
  let x := s.kernel.proc cur
  let orig := pgRoundDown x.tf.esp
  if orig = 0 then s.mem.HoldsFrame x.pgdir fn ttrap arg
  else orig < x.sz ∧
    FrameIntact x.sz orig fn ttrap (s.mem.page (s.mem.freelist.headD 0)).byte arg

/-! ## Writing the frame -/

theorem page_offset {n p : Nat} (hp : p < PGSIZE) :
    (n * PGSIZE + p) / PGSIZE = n ∧ (n * PGSIZE + p) % PGSIZE = p := by
  unfold PGSIZE at *
  omega

section

variable {s s' : Machine} {c : Nat} {cur : Slot}

theorem step_of_returns {a : Action} (h : Returns (a.code L) s () s') :
    s.step L (a, s.mem.refuse) = some s' := by
  have hstart : s.start s.mem.refuse = s := rfl
  unfold Machine.step
  rw [hstart, show exec (a.code L) s = (.ok (), s') from h]

theorem userEax_returns {r : Nat} (hcur : s.kernel.cpu c = some cur)
    (h : Returns (userEax c) s r s') : r = (s.kernel.proc cur).tf.eax ∧ s' = s := by
  simp only [userEax, returns_bind, returns_procOf, returns_pure] at h
  obtain ⟨cur', s1, hcaller, x, s2, ⟨rfl, rfl⟩, rfl, rfl⟩ := h
  obtain ⟨hcur', rfl⟩ := caller_returns hcaller
  obtain rfl : cur = cur' := Option.some.inj (hcur.symm.trans hcur')
  exact ⟨rfl, rfl⟩

/-- A run of stores to memory that leaves the process table alone. -/
def StoreRun (s s' : Machine) : Prop :=
  Run (Machine.step L) Machine.Quiet s s' ∧ s'.kernel = s.kernel

theorem StoreRun.refl (s : Machine) : StoreRun L s s := ⟨.refl, rfl⟩

variable {bs : List UInt8} {b : Nat → UInt8} {n : Nat} {e : Pte}

theorem userStores_run {s0 : Machine} {va : Nat} (h0 : StoreRun L s0 s)
    (h : Returns (userStores c va bs) s () s') : StoreRun L s0 s' := by
  induction bs generalizing s va with
  | nil =>
    obtain ⟨-, rfl⟩ := returns_pure.1 h
    exact h0
  | cons b bs ih =>
    obtain ⟨_, s1, hstore, h⟩ := returns_bind.1 h
    have hstep := step_of_returns L (a := .store c va b) hstore
    refine ih ⟨h0.1.next (.store c va b, s.mem.refuse) trivial hstep, ?_⟩ h
    simp only [userStore, returns_bind, returns_onMem] at hstore
    obtain ⟨_, _, hcaller, _, _, hproc, _, _, hget, _, _, hstop, m', -, rfl⟩ := hstore
    obtain ⟨-, rfl⟩ := caller_returns hcaller
    obtain ⟨-, rfl⟩ := returns_procOf.1 hproc
    obtain ⟨-, rfl⟩ := returns_get.1 hget
    obtain ⟨-, rfl⟩ := returns_stopIf.1 hstop
    exact h0.2

theorem writeFrame_run {stack sp fn ttrap : Nat} {arg : Option (List UInt8)}
    (h : Returns (writeFrame c stack fn ttrap arg) s sp s') : StoreRun L s s' := by
  simp only [writeFrame, returns_bind] at h
  obtain ⟨⟨top, ustack⟩, s1, harg, _, s2, hstores, hret⟩ := h
  obtain ⟨-, rfl⟩ := returns_pure.1 hret
  refine userStores_run L ?_ hstores
  cases arg with
  | none =>
    obtain ⟨-, rfl⟩ := returns_pure.1 harg
    exact .refl L s1
  | some str =>
    obtain ⟨_, s3, hcopy, hpair⟩ := returns_bind.1 harg
    obtain ⟨-, rfl⟩ := returns_pure.1 hpair
    exact userStores_run L (.refl L s) hcopy

/-- The page `f` has the bytes `b` now, and everything else is as before. -/
structure Wrote (f : Frame) (b : Nat → UInt8) (s s' : Machine) : Prop where
  kernel : s'.kernel = s.kernel
  page : s'.mem.page f = .data b
  other : ∀ g ≠ f, s'.mem.page g = s.mem.page g
  data : DataOnly s.mem s'.mem

theorem Wrote.trans {f : Frame} {b' : Nat → UInt8} {s1 : Machine} (h : Wrote f b s s1)
    (h' : Wrote f b' s1 s') : Wrote f b' s s' where
  kernel := h'.kernel.trans h.kernel
  page := h'.page
  other g hg := (h'.other g hg).trans (h.other g hg)
  data := h.data.trans h'.data

section

variable (hcur : s.kernel.cpu c = some cur)

include hcur

theorem userStores_present {off : Nat}
    (h : Returns (userStores c (n * PGSIZE + off) bs) s () s') (hoff : off < PGSIZE)
    (hbs : bs ≠ []) : n < UPAGES ∧ (s.mem.pte (s.kernel.proc cur).pgdir n).p := by
  obtain ⟨v, bs, rfl⟩ := List.exists_cons_of_ne_nil hbs
  simp only [userStores, userStore, returns_bind, returns_procOf, returns_get, returns_stopIf,
    page_offset hoff] at h
  obtain ⟨_, _, ⟨cur', _, hcaller, _, _, ⟨rfl, rfl⟩, _, _, ⟨rfl, rfl⟩, _, _, ⟨hperm, rfl⟩, -⟩, -⟩ :=
    h
  obtain ⟨hcur', hs⟩ := caller_returns hcaller
  subst hs
  obtain rfl : cur = cur' := Option.some.inj (hcur.symm.trans hcur')
  simp only [not_or, not_le, not_not] at hperm
  exact ⟨hperm.1, hperm.2.1⟩

theorem userStore_wrote {va : Nat} {v : UInt8}
    (h : Returns (userStore c va v) s () s')
    (he : s.mem.pte (s.kernel.proc cur).pgdir (va / PGSIZE) = e) (hb : s.mem.page e.ppn = .data b) :
    Wrote e.ppn (put b (va % PGSIZE) v) s s' := by
  simp only [userStore, returns_bind, returns_procOf, returns_get, returns_stopIf,
    returns_onMem] at h
  obtain ⟨cur', _, hcaller, _, _, ⟨rfl, rfl⟩, _, _, ⟨rfl, rfl⟩, _, _, ⟨-, rfl⟩, m', hpoke, rfl⟩ := h
  obtain ⟨hcur', hs⟩ := caller_returns hcaller
  subst hs
  obtain rfl : cur = cur' := Option.some.inj (hcur.symm.trans hcur')
  rw [he] at hpoke
  simp only [pokeByte, returns_bind, returns_get] at hpoke
  obtain ⟨_, _, ⟨rfl, rfl⟩, hpoke⟩ := hpoke
  rw [hb] at hpoke
  obtain rfl := returns_modify.1 hpoke
  exact ⟨rfl, by simp, fun g hg => by simp [put_of_ne hg],
    DataOnly.setPage (by rw [hb]; rfl) _⟩

theorem userStores_wrote {off : Nat}
    (h : Returns (userStores c (n * PGSIZE + off) bs) s () s') (hoff : off + bs.length ≤ PGSIZE)
    (he : s.mem.pte (s.kernel.proc cur).pgdir n = e) (hb : s.mem.page e.ppn = .data b) :
    Wrote e.ppn (putBytes b off bs) s s' := by
  induction bs generalizing s off b with
  | nil =>
    obtain ⟨-, rfl⟩ := returns_pure.1 h
    refine ⟨rfl, ?_, fun _ _ => rfl, .refl _⟩
    rw [hb]
    congr 1
    funext k
    exact (putBytes_outside (by simp; omega)).symm
  | cons v bs ih =>
    rw [List.length_cons] at hoff
    obtain ⟨hdiv, hmod⟩ := page_offset (n := n) (show off < PGSIZE by omega)
    obtain ⟨_, s1, hstore, h⟩ := returns_bind.1 h
    have hw := userStore_wrote hcur hstore (by rw [hdiv]; exact he) hb
    rw [hmod] at hw
    rw [Nat.add_assoc] at h
    rw [putBytes_cons]
    exact hw.trans (ih (by rw [hw.kernel]; exact hcur) h (by omega)
      (by rw [hw.kernel, hw.data.pte]; exact he) hw.page)

theorem words_wrote {top o sp : Nat} {ws : List Nat} (hn : n ≤ UPAGES)
    (h : Returns (userStores c sp (wordBytes ws)) s () s') (hws : ws ≠ [])
    (hsp : sp = uint32 ((top : Int) - ws.length * 4))
    (htop : top = n * PGSIZE + (o + 4 * ws.length)) (hend : o + 4 * ws.length ≤ PGSIZE)
    (he : s.mem.pte (s.kernel.proc cur).pgdir n = e) (hb : e.p → s.mem.page e.ppn = .data b) :
    sp = n * PGSIZE + o ∧ (n < UPAGES ∧ e.p) ∧ Wrote e.ppn (putBytes b o (wordBytes ws)) s s' := by
  have hlen := List.length_pos_iff.2 hws
  obtain rfl : sp = n * PGSIZE + o := by
    refine hsp.trans (uint32_eq (by omega) ?_)
    calc n * PGSIZE + o < UPAGES * PGSIZE + PGSIZE :=
          Nat.add_lt_add_of_le_of_lt (Nat.mul_le_mul_right PGSIZE hn) (by omega)
      _ ≤ 2 ^ 32 := by decide
  have hperm := userStores_present hcur h (by omega)
    (List.ne_nil_of_length_pos (by rw [length_wordBytes]; omega))
  rw [he] at hperm
  exact ⟨rfl, hperm, userStores_wrote hcur h (by rwa [length_wordBytes]) he (hb hperm.2)⟩

end

theorem writeFrame_wrote {sp fn ttrap : Nat} {arg : Option (List UInt8)} (hfit : Fits arg)
    (hn : n ≤ UPAGES) (hcur : s.kernel.cpu c = some cur)
    (h : Returns (writeFrame c (n * PGSIZE) fn ttrap arg) s sp s')
    (he : s.mem.pte (s.kernel.proc cur).pgdir n = e) (hb : e.p → s.mem.page e.ppn = .data b) :
    sp = n * PGSIZE + startOffset arg ∧ (n < UPAGES ∧ e.p) ∧
      Wrote e.ppn (framePage b (n * PGSIZE) fn ttrap arg) s s' := by
  have h32 : n * PGSIZE + PGSIZE < 2 ^ 32 :=
    (Nat.add_le_add_right (Nat.mul_le_mul_right PGSIZE hn) PGSIZE).trans_lt (by decide)
  have htop : uint32 ((n * PGSIZE : Nat) + PGSIZE) = n * PGSIZE + PGSIZE := uint32_eq (by simp) h32
  simp only [writeFrame, returns_bind] at h
  obtain ⟨⟨top, ustack⟩, s1, harg, _, s2, hstores, hret⟩ := h
  obtain ⟨hsp, rfl⟩ := returns_pure.1 hret
  rw [← hsp] at hstores
  cases arg with
  | none =>
    obtain ⟨hpair, rfl⟩ := returns_pure.1 harg
    obtain ⟨hend, hustack⟩ := Prod.mk.inj hpair
    rw [htop] at hend
    subst hustack
    exact words_wrote (o := startOffset none) hcur hn hstores (List.cons_ne_nil _ _) hsp
      (by simp [hend, startOffset, PGSIZE]) (by simp [startOffset, PGSIZE]) he hb
  | some str =>
    obtain ⟨hroom, hroom', -⟩ := hfit.room
    simp only [copyArg, returns_bind] at harg
    obtain ⟨_, s3, hcopy, hpair⟩ := harg
    obtain ⟨hpair', rfl⟩ := returns_pure.1 hpair
    have hsub : uint32 ((uint32 ((n * PGSIZE : Nat) + PGSIZE) : Int) - (str.length + 1)) / 4 * 4 =
        n * PGSIZE + argOffset str := by
      have hlen := hfit str rfl
      rw [htop, uint32_eq (n := n * PGSIZE + (PGSIZE - (str.length + 1))) (by omega) (by omega)]
      unfold argOffset PGSIZE
      omega
    rw [hsub] at hcopy hpair'
    obtain ⟨rfl, rfl⟩ := Prod.mk.inj hpair'
    have hperm := userStores_present hcur hcopy (by omega) (by simp)
    rw [he] at hperm
    have hw := userStores_wrote hcur hcopy
      (by rw [List.length_append, List.length_singleton]; omega) he (hb hperm.2)
    obtain ⟨hstart, -, hw'⟩ := words_wrote (o := argOffset str - 16) (by rw [hw.kernel]; exact hcur)
      hn hstores (List.cons_ne_nil _ _)
        hsp (by simp only [List.length_cons, List.length_nil]; omega)
      (by simp only [List.length_cons, List.length_nil]; omega)
      (by rw [hw.kernel, hw.data.pte]; exact he) fun _ => hw.page
    exact ⟨hstart, hperm, hw.trans hw'⟩

end

/-! ## The calls of the kernel -/

section

variable {s s' : Machine} {c : Nat} {cur np : Slot}

/-- **The page that `getpage` takes** is the next free one, with the bytes it had. -/
theorem getpage_bytes (hok : s.Ok False) (hcur : s.kernel.cpu c = some cur)
    (hret : Returns (getpage c) s () s') (hne : (s'.kernel.proc cur).tf.eax ≠ 0) :
    ∃ f, s.mem.freelist.headD 0 = f ∧ (s.mem.page f).isFree ∧ s.mem.Exact s'.mem ∧
      s'.mem.page f = .data (s.mem.page f).byte := by
  obtain ⟨r, hpalloc, hkernel⟩ := getpage_returns hcur hret
  have hr : (s'.kernel.proc cur).tf.eax = r := by simp [hkernel]
  rw [hr] at hne
  simp only [palloc, returns_bind] at hpalloc
  obtain ⟨_ | f, m1, hkalloc, hpalloc⟩ := hpalloc
  · exact absurd (returns_pure.1 hpalloc).1 hne
  obtain ⟨hf, rfl, fs, hfs⟩ := kalloc_returns hkalloc
  obtain ⟨ok, m2, hmap, hpalloc⟩ := returns_bind.1 hpalloc
  obtain ⟨-, hmem⟩ := returns_pure.1 hpalloc
  have hexact : (s.mem.asked.grant f).Exact m2 := by
    have hw := (Works.refl (hok.mem.dirs _ (hok.held cur (hok.used hcur)).dir).tree).grant hf
    obtain ⟨hfail, hsucc⟩ :=
      (mappages_spec (C := fun _ _ => True) hw.tree (.inr fun _ => trivial) (.inr fun _ => trivial)
        f true true).of_returns hmap
    cases ok with
    | false => exact (hfail rfl).1 ▸ .refl _
    | true => exact (hsucc rfl).1.exact hw.tree
  have hpage : (s.mem.asked.grant f).page f = .data (s.mem.page f).byte := by simp
  rw [hmem]
  refine ⟨f, by rw [hfs]; rfl, hf, Mem.Exact.trans (exact_of_free hf fun g hg => ?_) hexact, ?_⟩
  · simp [put_of_ne hg]
  · rw [hexact f (by rw [hpage]; rfl), hpage]

theorem pagesIn_pos {sz : Nat} (h : 0 < sz) : 0 < pagesIn sz := by
  rwa [lt_pagesIn, Nat.zero_mul]

theorem Made.first {stack : Nat} {m1 m2 : Mem} {r : Option Bool}
    (h : Made L s s' cur np stack m1 m2 r) (ht : s.mem.Tree (s.kernel.proc cur).pgdir) :
    (s.mem.pte (s.kernel.proc cur).pgdir 0).p := by
  have hsz := pagesIn_pos (Nat.zero_lt_of_lt h.arg.1)
  have hlink := h.link
  rw [linkAll, show pagesIn (s.kernel.proc cur).sz = pagesIn
    (s.kernel.proc cur).sz - 1 + 1 by omega, List.range'_succ, untilSome] at hlink
  obtain ⟨_, m3, hat, -⟩ := returns_bind.1 hlink
  simp only [linkAt, returns_bind] at hat
  obtain ⟨pte, m4, hpres, -⟩ := hat
  have hspec : Ends (presentPte "linkuvm" (s.kernel.proc cur).pgdir 0) m2
      (fun _ _ => (m2.pte (s.kernel.proc cur).pgdir 0).p) (Calm False False) :=
    presentPte_ends False.elim False.elim fun h => h
  rw [← h.pte ht, ← h.fresh.keeps.pte (h.tree ht) (fun _ _ h => h)]
  exact hspec.of_returns hpres

end

/-! ## The thread with a stack of its own -/

theorem sees_direct (m : Mem) (d : Frame) {a : Nat} (ha : a % PGSIZE = 0) (h32 : a < 2 ^ 32)
    (hphys : v2p a * PGSIZE < PHYSTOP) : m.Sees d a (v2p a) := by
  intro j hj
  obtain ⟨hge, hlt, hdiv⟩ := v2p_page ha h32 hj hphys
  exact ⟨true, by rw [Mem.frameAt, if_neg (not_lt.2 hge), if_pos hlt, hdiv]⟩

theorem frameAt_user {m : Mem} {d n j : Nat} (hn : n < UPAGES) (hj : j < PGSIZE) :
    m.frameAt d (uint32 ((n * PGSIZE : Nat) + (j : Int))) =
      if (m.pte d n).p then some ((m.pte d n).ppn, (m.pte d n).w) else none := by
  have hva : uint32 ((n * PGSIZE : Nat) + (j : Int)) < KERNBASE ∧
      uint32 ((n * PGSIZE : Nat) + (j : Int)) / PGSIZE = n := by
    unfold uint32
    unfold UPAGES KERNBASE PGSIZE at *
    omega
  rw [Mem.frameAt, if_pos hva.1, hva.2]

theorem sees_user {m : Mem} {d n : Nat} (hn : n < UPAGES) (hp : (m.pte d n).p) :
    m.Sees d (n * PGSIZE) (m.pte d n).ppn :=
  fun _ hj => ⟨(m.pte d n).w, (frameAt_user hn hj).trans (if_pos hp)⟩

theorem userByte_eq {m : Mem} {d n p : Nat} (hn : n < UPAGES) (hp : p < PGSIZE) :
    m.userByte d (n * PGSIZE + p) = if (m.pte d n).p ∧ (m.pte d n).u then
      some ((m.page (m.pte d n).ppn).byte p) else none := by
  simp only [Mem.userByte, page_offset hp, hn, true_and]

theorem userByte_first (m : Mem) (d : Nat) {p : Nat} (hp : p < PGSIZE) :
    m.userByte d p = if (m.pte d 0).p ∧ (m.pte d 0).u then
      some ((m.page (m.pte d 0).ppn).byte p) else none := by
  rw [← userByte_eq (by decide) hp, Nat.zero_mul, Nat.zero_add]

theorem present_of_loadWord {m m' : Mem} {d n off x : Nat} (hn : n < UPAGES) (hoff : off < PGSIZE)
    (h : Returns (loadWord d (uint32 ((n * PGSIZE : Nat) + (off : Int)))) m x m') :
    (m.pte d n).p := by
  simp only [loadWord, loadByte, returns_bind, returns_get] at h
  obtain ⟨_, _, ⟨_, _, ⟨rfl, rfl⟩, hbyte⟩, -⟩ := h
  by_contra hp
  rw [frameAt_user hn hoff, if_neg hp] at hbyte
  exact returns_throw hbyte

section

variable {L} {s s' : Machine} {cur np : Slot} {stack : Nat} {m1 m2 : Mem} {r : Option Bool}

section

variable (h : Made L s s' cur np stack m1 m2 r)

include h

theorem Made.esp_eq (hok : s.Ok False) (hu : s.Used cur)
    (hoff : stack % PGSIZE + 4 < PGSIZE) : (s'.kernel.proc np).tf.esp =
      pgRoundDown (s.kernel.proc cur).tf.esp + (stack % PGSIZE + 4) := by
  have hnext := uint32_next (pgRoundDown (s.kernel.proc cur).tf.esp) (stack % PGSIZE) 4
  have hesp := (hok.held cur hu).esp
  rw [h.esp, show (4 : Int) = ((4 : Nat) : Int) from rfl, hnext]
  refine uint32_eq (by push_cast; rfl) ?_
  unfold pgRoundDown
  unfold PGSIZE at *
  omega

/-- **The stack of a thread** whose creator has one of its own: the words of the page that was given
are moved to it. -/
theorem Made.moved (hok : s.Ok False) (hu : s.Used cur)
    {n : Nat} (hn : pgRoundDown (s.kernel.proc cur).tf.esp = n * PGSIZE) (hpos : 0 < n)
    (hlt : n * PGSIZE < (s.kernel.proc cur).sz) (hstack : stack < 2 ^ 32) (hal : stack % 4 = 0)
    {b : Nat → UInt8} (hb : s.mem.page (v2p (pgRoundDown stack)) = .data b)
    (hne : (s.mem.pte (s.kernel.proc cur).pgdir n).p →
      (s.mem.pte (s.kernel.proc cur).pgdir n).ppn ≠ v2p (pgRoundDown stack)) :
    let sz := (s.kernel.proc cur).sz
    let y := s'.kernel.proc np
    y.sz = n * PGSIZE + PGSIZE ∧
      y.tf.eip = Memory.moved sz (n * PGSIZE) (numAt b (stack % PGSIZE) 4) ∧
      ∀ p, stack % PGSIZE ≤ p → p < PGSIZE → s'.mem.userByte y.pgdir (n * PGSIZE + p) =
        some (movedByte sz (n * PGSIZE) b p) := by
  intro sz y
  have hheld := hok.held cur hu
  have hdir := hok.mem.dirs _ hheld.dir
  have hsz : sz ≤ KERNBASE := hheld.size
  have h32 : n * PGSIZE < 2 ^ 32 := hlt.trans_le (hsz.trans (by decide))
  have hmod : n * PGSIZE % PGSIZE = 0 := Nat.mul_mod_left n PGSIZE
  have hoff : stack % PGSIZE + 4 ≤ PGSIZE := by
    unfold PGSIZE
    omega
  set f := v2p (pgRoundDown stack) with hf
  obtain ⟨hend, huntil⟩ := h.linkEnd hdir.tree hheld.esp
  have heip := h.eip
  rw [hn] at hend huntil heip
  -- the loop has found the stack
  obtain rfl : r = some true := by
    rcases r with _ | _ | _
    · exact absurd ⟨Nat.le_mul_of_pos_left _ hpos, hlt⟩ hend.2
    · exact absurd rfl h.good
    · rfl
  obtain ⟨hlinking, -, hU⟩ := hend
  rw [Nat.mul_div_cancel n (by decide)] at hlinking hU
  obtain ⟨m3, hexact, hmove⟩ := huntil
  have hexact := (h.took.exact.trans h.fresh.exact).trans hexact
  have hdata : DataOnly m3 s'.mem :=
    (@moveStack_spec False False _ _ _ _ _ False.elim).of_returns hmove
  have hpte : s'.mem.pte (s.kernel.proc cur).pgdir n = s.mem.pte (s.kernel.proc cur).pgdir n :=
    (hlinking.building.keeps.pte (h.tree hdir.tree) (fun _ _ h => h) n).trans (h.pte hdir.tree n)
  have hp := present_of_loadWord hU (by omega) heip
  have hp3 : (m3.pte (s.kernel.proc cur).pgdir n).p := by rwa [← hdata.pte]
  rw [hpte] at hp
  have hne := hne hp
  -- the page of the caller's stack, which is another one
  set g := (s.mem.pte (s.kernel.proc cur).pgdir n).ppn with hg
  obtain ⟨b', hb'⟩ : ∃ b', s.mem.page g = .data b' := by
    have := hdir.user n hU hp
    rcases hpage : s.mem.page g with _ | _ | b' | _ | _
    case data => exact ⟨b', rfl⟩
    all_goals
      rw [hpage] at this
      exact absurd this Bool.false_ne_true
  have hseen := sees_user hU hp3
  rw [← hdata.pte, hpte, ← hg] at hseen
  have hbytes := (moveStack_bytes ((hexact f (by rw [hb]; rfl)).trans hb)
    ((hexact g (by rw [hb']; rfl)).trans hb') hne.symm
    (sees_direct m3 _ (pgRoundDown_mod stack) ((pgRoundDown_le stack).trans_lt hstack)
      (hok.mem.phys f (Page.isKernel_of_isData (by rw [hb]; rfl)))) hseen hmod hal).of_returns hmove
  obtain ⟨hpf, hpg, -⟩ := hbytes
  refine ⟨?_, ?_, fun p hp hp' => ?_⟩
  · rw [h.sz, hn]
    refine uint32_eq (by push_cast; rfl) ?_
    calc n * PGSIZE + PGSIZE < KERNBASE + PGSIZE := Nat.add_lt_add_right (hlt.trans_le hsz) PGSIZE
      _ ≤ 2 ^ 32 := by decide
  · -- the kernel reads the function from the caller's stack, where the frame was copied to
    have hload := (loadWord_bytes (hseen.data hdata) hmod hoff).of_returns heip
    rw [hload.1, hpg]
    have hlt32 := moved_lt (w := numAt b (stack % PGSIZE) 4) hsz hlt (numAt_lt _ _ 4)
    exact (numAt_copiedPage_first (by omega)).trans (Nat.mod_eq_of_lt hlt32)
  · have hptd : s'.mem.pte y.pgdir n = ⟨f, true, true, true⟩ := by
      rw [hlinking.rest n le_rfl hU, if_pos rfl]
    have hmod4 : stack % PGSIZE % 4 = 0 := by
      unfold PGSIZE
      omega
    have hwords : stack % PGSIZE + 4 * ((PGSIZE - stack % PGSIZE) / 4) = PGSIZE := by
      unfold PGSIZE at *
      omega
    rw [userByte_eq hU hp', hptd, if_pos ⟨rfl, rfl⟩, hpf]
    show some (movedPage _ _ _ _ b p) = _
    rw [movedPage_byte, if_pos ⟨hp, by omega⟩, movedByte]
    have hword : stack % PGSIZE + 4 * ((p - stack % PGSIZE) / 4) = p / 4 * 4 := by omega
    have hbyte : (p - stack % PGSIZE) % 4 = p % 4 := by omega
    rw [hword, hbyte]

/-- **A thread whose creator has its stack in the first page** shares that page. -/
theorem Made.shared (hok : s.Ok False) (hu : s.Used cur)
    (hzero : pgRoundDown (s.kernel.proc cur).tf.esp = 0) (hoff : stack % PGSIZE + 4 ≤ PGSIZE) :
    let pd := (s.kernel.proc cur).pgdir
    let y := s'.kernel.proc np
    y.sz = PGSIZE ∧
      y.tf.eip = numAt (s.mem.page (s.mem.pte pd 0).ppn).byte (stack % PGSIZE) 4 ∧
      ∀ p < PGSIZE, s'.mem.userByte y.pgdir p = s.mem.userByte pd p := by
  intro pd y
  have hheld := hok.held cur hu
  have hdir := hok.mem.dirs _ hheld.dir
  have hp := h.first L hdir.tree
  have hU : 0 < UPAGES := by decide
  obtain ⟨hend, huntil⟩ := h.linkEnd hdir.tree hheld.esp
  have heip := h.eip
  rw [hzero] at hend heip
  obtain rfl : r = none := by
    rcases r with _ | _ | _
    · rfl
    · exact absurd rfl h.good
    · exact absurd hend.2.1.1 (by decide)
  have hsz := pagesIn_pos (Nat.zero_lt_of_lt h.arg.1)
  have hexact := (h.took.exact.trans h.fresh.exact).trans huntil
  have hpage := hexact _ (hdir.user 0 hU hp)
  have hpte : s'.mem.pte y.pgdir 0 = s.mem.pte pd 0 :=
    ((hend.1.linked 0 hsz (links_of_lt (by decide) hU.le)).2).trans (h.pte hdir.tree 0)
  have hpte' : s'.mem.pte pd 0 = s.mem.pte pd 0 :=
    (hend.1.building.keeps.pte (h.tree hdir.tree) (fun _ _ h => h) 0).trans (h.pte hdir.tree 0)
  refine ⟨by rw [h.sz, hzero]; rfl, ?_, fun p hp => ?_⟩
  · have hseen : s'.mem.Sees pd 0 (s.mem.pte pd 0).ppn := by
      have := sees_user (m := s'.mem) (d := pd) hU (by rwa [hpte'])
      rwa [hpte', Nat.zero_mul] at this
    rw [((loadWord_bytes hseen (Nat.zero_mod _) hoff).of_returns heip).1, hpage]
  · rw [userByte_first _ _ hp, userByte_first _ _ hp, hpte, hpage]

end

end

/-! ## The whole of it -/

section

variable {s s' : Machine} {c fn ttrap : Nat} {arg : Option (List UInt8)} {cur np : Slot}

/-- **Up to `thread_create`**, called in `s3`: the frame is on the page `f`, the first of the free
list, and the caller has everything else it had. -/
structure Framed (s s3 : Machine) (cur : Slot) (stack fn ttrap : Nat) (arg : Option (List UInt8)) :
    Prop where
  ok : s3.Ok False
  used : s3.Used cur
  pgdir : (s3.kernel.proc cur).pgdir = (s.kernel.proc cur).pgdir
  sz : (s3.kernel.proc cur).sz = (s.kernel.proc cur).sz
  esp : (s3.kernel.proc cur).tf.esp = (s.kernel.proc cur).tf.esp
  free : (s.mem.page (s.mem.freelist.headD 0)).isFree
  page : s3.mem.page (s.mem.freelist.headD 0) =
    .data (framePage (s.mem.page (s.mem.freelist.headD 0)).byte
      (pagesIn (s.kernel.proc cur).sz * PGSIZE) fn ttrap arg)
  frame : v2p (pgRoundDown stack) = s.mem.freelist.headD 0
  small : stack < 2 ^ 32
  offset : stack % PGSIZE = startOffset arg
  pte : ∀ n ≠ pagesIn (s.kernel.proc cur).sz,
    s3.mem.pte (s.kernel.proc cur).pgdir n = s.mem.pte (s.kernel.proc cur).pgdir n
  bytes : s.mem.Exact s3.mem

theorem threadCreator_framed (hok : s.Ok False) (hcur : s.kernel.cpu c = some cur) (hfit : Fits arg)
    (hret : Returns (threadCreator L c fn ttrap arg) s () s')
    (hnp : (s.kernel.proc np).state = .unused) (hnew : (s'.kernel.proc np).state = .runnable) :
    ∃ s3 stack m1 m2 r, Framed s s3 cur stack fn ttrap arg ∧ Made L s3 s' cur np stack m1 m2 r := by
  set x := s.kernel.proc cur with hx
  have hheld := hok.held cur (hok.used hcur)
  simp only [threadCreator, returns_bind] at hret
  obtain ⟨_, t1, hget, stack, s1, heax, sp, s2, hwrite, _, t3, hdet, page, s3, heax', hcreate⟩ :=
    hret
  -- the process table: only `eax` of the caller changes
  obtain ⟨r1, -, hk1⟩ := getpage_returns hcur hget
  have hcur1 : t1.kernel.cpu c = some cur := by rw [hk1]; exact hcur
  obtain ⟨hstack, rfl⟩ := userEax_returns hcur1 heax
  obtain ⟨hquiet, hk2⟩ := writeFrame_run L hwrite
  have hcur2 : s2.kernel.cpu c = some cur := by rw [hk2]; exact hcur1
  obtain ⟨r3, hk3, -⟩ := detachpage_returns hcur2 hdet
  have hcur3 : t3.kernel.cpu c = some cur := by rw [hk3]; exact hcur2
  obtain ⟨hpage, rfl⟩ := userEax_returns hcur3 heax'
  have hpgdir1 : (s1.kernel.proc cur).pgdir = x.pgdir := by rw [hk1]; simp [hx]
  have hpgdir2 : (s2.kernel.proc cur).pgdir = x.pgdir := by rw [hk2, hpgdir1]
  have hpgdir3 : (s3.kernel.proc cur).pgdir = x.pgdir := by rw [hk3]; simp [hpgdir2]
  have hsz2 : (s2.kernel.proc cur).sz = x.sz := by rw [hk2, hk1]; simp [hx]
  have hsz3 : (s3.kernel.proc cur).sz = x.sz := by rw [hk3]; simp [hsz2]
  have hesp2 : (s2.kernel.proc cur).tf.esp = x.tf.esp := by rw [hk2, hk1]; simp [hx]
  have hesp3 : (s3.kernel.proc cur).tf.esp = x.tf.esp := by rw [hk3]; simp [hesp2]
  have hne : np ≠ cur := by
    rintro rfl
    exact absurd ((hok.wf.onCpu c np hcur).1.symm.trans hnp) (by decide)
  have hnp3 : (s3.kernel.proc np).state = .unused := by
    rw [hk3, hk2, hk1]
    simp [hne, hnp]
  -- the invariant
  have hok1 := hok.step L (e := (.getpage c, s.mem.refuse)) (fun _ _ h => h.elim)
    (step_of_returns L hget)
  have hok2 := hok1.quiet L hquiet
  have hok3 := hok2.step L (e := (.detachpage c stack, s2.mem.refuse)) (fun _ _ h => h.elim)
    (step_of_returns L hdet)
  obtain ⟨m1, m2, r, hmade⟩ :=
    threadCreate_made L hcur3 (hok3.wf.onCpu c cur hcur3).1 hcreate hnp3 hnew
  have hu3 := hok3.used hcur3
  have harg : argint (s2.kernel.proc cur) := by
    have := hmade.arg
    unfold argint at this ⊢
    rwa [hsz2, hesp2, ← hsz3, ← hesp3]
  -- with a page that was not given, `detachpage` takes the first page of the caller away
  have hne0 : stack ≠ 0 := by
    rintro rfl
    have hend := detachpage_end hok2 hcur2 hdet (by decide) harg
    have hfirst := hmade.first L (hok3.mem.dirs _ (hok3.held cur hu3).dir).tree
    rw [hpgdir2] at hend
    rw [hpgdir3] at hfirst
    generalize some (s3.kernel.proc cur).tf.eax = r' at hend
    generalize s3.mem = m' at hend hfirst
    have hzero : m'.pte x.pgdir 0 = .zero := by
      cases hend with
      | refused hzero => exact hzero
      | unmapped _ _ hpte _ => exact (hpte 0).trans (if_pos rfl)
    rw [hzero] at hfirst
    cases hfirst
  rw [hstack] at hne0
  obtain ⟨heax1, hother1, hlent⟩ := getpage_lent hok hcur hget hne0
  obtain ⟨f, hhead, hfree, hexact1, hbytes1⟩ := getpage_bytes hok hcur hget hne0
  rw [heax1] at hstack
  set n := pagesIn x.sz with hn
  -- the page that was mapped is the first of the free list
  have hframe : (s1.mem.pte x.pgdir n).p → (s1.mem.pte x.pgdir n).ppn = f := by
    intro hp
    rcases hlent with hzero | hlent
    · rw [hzero] at hp
      cases hp
    rcases hlent.taken f hfree (by rw [hbytes1]; rfl) with heq | hpart
    · exact heq.symm
    · have htree := (hok1.mem.dirs _ (hok1.held cur (hok1.used hcur1)).dir).tree
      rw [hpgdir1] at htree
      have := (htree.part hpart).2
      rw [hbytes1] at this
      exact absurd this.symm Bool.false_ne_true
  rw [hstack] at hwrite hdet
  have hnU : n ≤ UPAGES := pagesIn_le.2 hheld.size
  obtain ⟨hsp, ⟨hU, hp⟩, hwrote⟩ := writeFrame_wrote hfit hnU hcur1 hwrite (by rw [hpgdir1])
    fun hp => by rw [hframe hp, hbytes1]
  rw [hframe hp] at hwrote
  -- the page is detached
  have hloc : uint32 ((n * PGSIZE : Nat) : Int) = n * PGSIZE :=
    uint32_eq rfl ((Nat.mul_le_mul_right PGSIZE hnU).trans_lt (by decide))
  have hal : uint32 ((n * PGSIZE : Nat) : Int) % PGSIZE = 0 := by
    rw [hloc]
    exact Nat.mul_mod_left n PGSIZE
  have hexact3 := (detachpage_end hok2 hcur2 hdet hal harg).exact
    (hok2.mem.dirs _ (hok2.held cur (hok2.used hcur2)).dir).tree
  have hdetached : (s3.kernel.proc cur).tf.eax = p2v f ∧
      ∀ k ≠ n, s3.mem.pte x.pgdir k = s2.mem.pte x.pgdir k := by
    have hend := detachpage_end hok2 hcur2 hdet hal harg
    rw [hpgdir2, hloc, Nat.mul_div_cancel n (by decide)] at hend
    generalize hr : some (s3.kernel.proc cur).tf.eax = r' at hend
    generalize s3.mem = m' at hend ⊢
    cases hend with
    | refused hzero =>
      rw [hwrote.data.pte] at hzero
      rw [hzero] at hp
      cases hp
    | unmapped _ _ hpte _ =>
      rw [if_pos rfl, hwrote.data.pte, hframe hp] at hr
      exact ⟨Option.some.inj hr, fun k hk => (hpte k).trans (if_neg hk)⟩
  -- the address that `thread_create` is given
  have hphys := hok1.mem.phys f (Page.isKernel_of_isData (by rw [hbytes1]; rfl))
  have hoff : startOffset arg < PGSIZE := by
    have := (startOffset_mod hfit).2
    omega
  obtain ⟨haddr, h32⟩ := uint32_p2v_add hphys hoff
  have hgiven : uint32 (page + ((sp : Int) - stack)) = f * PGSIZE + KERNBASE + startOffset arg := by
    rw [← haddr, hpage, hdetached.1, hsp, hstack]
    congr 1
    push_cast
    ring
  rw [hgiven, uint32_eq rfl h32] at hmade
  refine ⟨s3, _, m1, m2, r, ⟨hok3, hu3, hpgdir3, hsz3, hesp3, hhead ▸ hfree, ?_, ?_, h32, ?_,
    fun k hk => ?_, fun g hg => ?_⟩, hmade⟩
  · rw [hhead, hexact3 f (by rw [hwrote.page]; rfl), hwrote.page]
  · rw [hhead, ← haddr]
    exact v2p_p2v hphys hoff
  · unfold KERNBASE
    unfold PGSIZE at *
    omega
  · rw [hdetached.2 k hk, hwrote.data.pte]
    exact hother1 k hk
  · have hgf : g ≠ f := by
      rintro rfl
      rw [Page.isData_of_isFree hfree] at hg
      cases hg
    have h2 : s2.mem.page g = s.mem.page g := (hwrote.other g hgf).trans (hexact1 g hg)
    rw [hexact3 g (by rwa [h2]), h2]

theorem Framed.userByte {s3 : Machine} {stack : Nat} (h : Framed s s3 cur stack fn ttrap arg)
    (hok : s.Ok False) (hu : s.Used cur) (hsz : 0 < (s.kernel.proc cur).sz) {p : Nat}
      (hp : p < PGSIZE) :
    s3.mem.userByte (s.kernel.proc cur).pgdir p = s.mem.userByte (s.kernel.proc cur).pgdir p := by
  rw [userByte_first _ _ hp, userByte_first _ _ hp, h.pte 0 (pagesIn_pos hsz).ne]
  split
  · rename_i hflags
    rw [h.bytes _ ((hok.mem.dirs _ (hok.held cur hu).dir).user 0 (by decide) hflags.1)]
  · rfl

/-- **A thread that shares the first page with its creator.** -/
theorem starts_iff_shared {s3 : Machine} {stack : Nat} {m1 m2 : Mem} {r : Option Bool}
    (hf : Framed s s3 cur stack fn ttrap arg) (hm : Made L s3 s' cur np stack m1 m2 r)
    (hok : s.Ok False) (hu : s.Used cur) (hfit : Fits arg) (hfn : fn < 2 ^ 32)
    (hzero : pgRoundDown (s.kernel.proc cur).tf.esp = 0) :
    s'.Starts np fn ttrap arg ↔ s.mem.HoldsFrame (s.kernel.proc cur).pgdir fn ttrap arg := by
  obtain ⟨-, hend⟩ := startOffset_mod hfit
  have hzero3 : pgRoundDown (s3.kernel.proc cur).tf.esp = 0 := by rw [hf.esp, hzero]
  have hsz : 0 < (s.kernel.proc cur).sz := by
    rw [← hf.sz]
    exact (Nat.zero_le _).trans_lt hm.arg.1
  have hoff := hf.offset
  have hesp := hm.esp_eq hf.ok hf.used (by omega)
  obtain ⟨hsz', heip, hbyte⟩ := hm.shared hf.ok hf.used hzero3 (by omega)
  rw [hzero3, hoff, Nat.zero_add] at hesp
  rw [hoff, hf.pgdir, hf.pte 0 (pagesIn_pos hsz).ne] at heip
  rw [hf.pgdir] at hbyte
  -- the thread reads what its creator has read
  have hread : ∀ p < PGSIZE, s'.mem.userByte (s'.kernel.proc np).pgdir p =
      s.mem.userByte (s.kernel.proc cur).pgdir p := fun p hp =>
    (hbyte p hp).trans (hf.userByte hok hu hsz hp)
  have hret : Holds (s'.mem.userByte (s'.kernel.proc np).pgdir) (startOffset arg + 4)
      (wordBytes [ttrap]) ↔ Holds (s.mem.userByte (s.kernel.proc cur).pgdir) (startOffset arg + 4)
        (wordBytes [ttrap]) := Holds.congr fun k hk => hread _ (by
    rw [length_wordBytes, List.length_singleton] at hk
    omega)
  have harg : HasArg (s'.mem.userByte (s'.kernel.proc np).pgdir) (startOffset arg + 8) 0 arg ↔
      HasArg (s.mem.userByte (s.kernel.proc cur).pgdir) (startOffset arg + 8) 0 arg :=
    HasArg.congr (fun p hp => by rw [Nat.zero_add]; exact hread p hp) (Nat.zero_le _) (by omega)
  -- and if it can read at all, the kernel has read the same
  have hfirst : Holds (s.mem.userByte (s.kernel.proc cur).pgdir) (startOffset arg + 4)
      (wordBytes [ttrap]) → ((s'.kernel.proc np).tf.eip = fn ↔
        Holds (s.mem.userByte (s.kernel.proc cur).pgdir) (startOffset arg) (wordBytes [fn])) := by
    intro h
    have hbytes := fun p => @userByte_first s.mem (s.kernel.proc cur).pgdir p
    have hsome := h 0 (by simp [length_wordBytes])
    rw [Nat.add_zero, hbytes _ (by omega)] at hsome
    split at hsome
    · rename_i hflags
      simp only [hflags, and_self, if_true] at hbytes
      have hexact := hf.bytes _ ((hok.mem.dirs _ (hok.held cur hu).dir).user 0 (by decide) hflags.1)
      rw [heip, hexact]
      exact (holds_word_iff (fun k hk => hbytes _ (by omega)) hfn).symm
    · cases hsome
  constructor
  · rintro ⟨heip', hret', harg'⟩
    rw [hesp] at hret' harg'
    rw [hsz', Nat.sub_self] at harg'
    have hret' := hret.1 hret'
    exact ⟨(hfirst hret').1 heip', hret', harg.1 harg'⟩
  · rintro ⟨hfn', hret', harg'⟩
    refine ⟨(hfirst hret').2 hfn', ?_, ?_⟩
    · rw [hesp]
      exact hret.2 hret'
    · rw [hesp, hsz', Nat.sub_self]
      exact harg.2 harg'

/-- **When a thread starts as it should.** -/
theorem thread_starts_iff (hok : s.Ok False) (hcur : s.kernel.cpu c = some cur) (hfit : Fits arg)
    (hfn : fn < 2 ^ 32) (httrap : ttrap < 2 ^ 32)
    (hret : Returns (threadCreator L c fn ttrap arg) s () s')
    (hnp : (s.kernel.proc np).state = .unused) (hnew : (s'.kernel.proc np).state = .runnable) :
    s'.Starts np fn ttrap arg ↔ s.StartsWell cur fn ttrap arg := by
  obtain ⟨s3, stack, m1, m2, r, hf, hm⟩ := threadCreator_framed L hok hcur hfit hret hnp hnew
  have hu := hok.used hcur
  have hheld := hok.held cur hu
  obtain ⟨hmod, hend⟩ := startOffset_mod hfit
  have hoff := hf.offset
  have hesp := hm.esp_eq hf.ok hf.used (by omega)
  rw [hf.esp, hoff] at hesp
  unfold Machine.StartsWell
  by_cases hzero : pgRoundDown (s.kernel.proc cur).tf.esp = 0
  · rw [if_pos hzero]
    exact starts_iff_shared L hf hm hok hu hfit hfn hzero
  rw [if_neg hzero]
  by_cases hlt : pgRoundDown (s.kernel.proc cur).tf.esp < (s.kernel.proc cur).sz
  swap
  · -- the stack pointer is at the end of the address space, where user code can read nothing
    refine ⟨fun h => ?_, fun h => absurd h.1 hlt⟩
    have hhigh : pgRoundDown (s.kernel.proc cur).tf.esp = 2 ^ 32 - PGSIZE := by
      have harg := hm.arg
      unfold argint at harg
      rw [hf.esp, hf.sz] at harg
      exact (argint_esp hheld.esp harg).resolve_left fun h => hlt ((pgRoundDown_le _).trans_lt h)
    have hnone := h.ret 0 (by simp [length_wordBytes])
    rw [hesp, hhigh, Nat.add_zero, Mem.userByte, if_neg] at hnone
    · cases hnone
    · rintro ⟨hU, -⟩
      unfold UPAGES KERNBASE PGSIZE at hU
      omega
  -- the frame was moved to the stack
  have hback : pgRoundDown (s.kernel.proc cur).tf.esp / PGSIZE * PGSIZE =
      pgRoundDown (s.kernel.proc cur).tf.esp :=
    Nat.div_mul_cancel (Nat.dvd_of_mod_eq_zero (pgRoundDown_mod _))
  set n := pgRoundDown (s.kernel.proc cur).tf.esp / PGSIZE with hn
  rw [← hback] at hesp hlt hzero ⊢
  have hpos : 0 < n := Nat.pos_of_ne_zero fun h => hzero (by rw [h, Nat.zero_mul])
  have hin : n ≠ pagesIn (s.kernel.proc cur).sz := (lt_pagesIn.2 hlt).ne
  have hU : n < UPAGES := by
    have := hlt.trans_le hheld.size
    unfold UPAGES KERNBASE PGSIZE at *
    omega
  have hal : stack % 4 = 0 := by
    unfold PGSIZE at hoff
    omega
  have hother : (s3.mem.pte (s3.kernel.proc cur).pgdir n).p →
      (s3.mem.pte (s3.kernel.proc cur).pgdir n).ppn ≠ v2p (pgRoundDown stack) := by
    intro hp heq
    rw [hf.pgdir, hf.pte n hin] at hp heq
    have hdata := (hok.mem.dirs _ hheld.dir).user n hU hp
    rw [heq, hf.frame, Page.isData_of_isFree hf.free] at hdata
    cases hdata
  have hmoved := hm.moved hf.ok hf.used (by rw [hf.esp, hback]) hpos (by rw [hf.sz]; exact hlt)
    hf.small hal (by rw [hf.frame]; exact hf.page) hother
  rw [hf.sz, hoff] at hmoved
  obtain ⟨hsz', heip, hrd⟩ := hmoved
  rw [(framePage_words ..).1, Nat.mod_eq_of_lt (hfn.trans_le (by decide))] at heip
  have hintact := frame_intact_iff hfit hheld.size hlt (Nat.mul_mod_left n PGSIZE) hfn httrap hrd
  rw [and_iff_right hlt, ← hintact]
  have hbase : (s'.kernel.proc np).sz - PGSIZE = n * PGSIZE := by rw [hsz', Nat.add_sub_cancel]
  have hnext : (s'.kernel.proc np).tf.esp + 4 = n * PGSIZE + (startOffset arg + 8) := by
    rw [hesp, Nat.add_assoc]
  constructor
  · rintro ⟨heip', hret', harg'⟩
    rw [hesp] at hret'
    rw [hnext, hbase] at harg'
    exact ⟨heip ▸ heip', hret', harg'⟩
  · rintro ⟨heip', hret', harg'⟩
    refine ⟨heip.trans heip', by rw [hesp]; exact hret', ?_⟩
    rw [hnext, hbase]
    exact harg'

end

/-! ## Two threads -/

/-- The first process, after it has grown by `n` bytes and set its stack pointer to the second page,
starts a thread with the argument `"a"`; `p` is checked of the states before and after. -/
def startOne (p : Machine → Machine → Bool) (s : Machine) : Bool :=
  decide (s.kernel.cpu 0 = some 0 ∧ (s.kernel.proc 1).state = .unused) &&
    match exec (threadCreator smallLayout 0 100 200 (some [97])) s with
    | (.ok _, s') => decide ((s'.kernel.proc 1).state = .runnable) && p s s'
    | (.error _, _) => false

theorem started_of_startOne {p : Machine → Machine → Bool} {s : Machine} (h : startOne p s = true) :
    s.kernel.cpu 0 = some 0 ∧ (s.kernel.proc 1).state = .unused ∧ ∃ s',
      Returns (threadCreator smallLayout 0 100 200 (some [97])) s () s' ∧
      (s'.kernel.proc 1).state = .runnable ∧ p s s' = true := by
  unfold startOne at h
  rw [Bool.and_eq_true, decide_eq_true_eq] at h
  obtain ⟨⟨hcur, hun⟩, h⟩ := h
  split at h
  · rename_i s' hexec
    rw [Bool.and_eq_true, decide_eq_true_eq] at h
    exact ⟨hcur, hun, s', hexec, h.1, h.2⟩
  · cases h

/-- With a page-aligned size the thread finds its argument. -/
theorem thread_starts_with_argument : ∃ s s' : Machine,
    Returns (threadCreator smallLayout 0 100 200 (some [97])) s () s' ∧
    (s'.kernel.proc 1).state = .runnable ∧ s'.Starts 1 100 200 (some [97]) := by
  obtain ⟨s, -, hok, hs⟩ := exists_ok_of_runs
    [(.userinit, []), (.table (.dispatch 0 0), []), (.setEsp 0 100, []), (.sbrk 0 8192, []),
      (.setEsp 0 4200, [])]
    (startOne fun s _ => decide ((s.kernel.proc 0).tf.esp = 4200 ∧ (s.kernel.proc 0).sz = 12288 ∧
      numAt (argPage (s.mem.page (s.mem.freelist.headD 0)).byte [97]) (argOffset [97]) 4 < 12288))
    (by decide +kernel)
  obtain ⟨hcur, hun, s', hret, hnew, hp⟩ := started_of_startOne hs
  obtain ⟨hesp, hsz, hword⟩ := of_decide_eq_true hp
  refine ⟨s, s', hret, hnew, (thread_starts_iff smallLayout hok hcur ?_ (by decide) (by decide) hret
    hun hnew).2 ?_⟩
  · rintro str ⟨⟩
    decide
  · simp only [Machine.StartsWell, FrameIntact, hesp, hsz]
    rw [if_neg (by decide)]
    refine ⟨by decide, by decide, by decide, ?_⟩
    rintro str ⟨⟩
    rw [if_pos (by decide)]
    intro k hk hin
    obtain rfl : k = 0 := by
      simp only [List.length_singleton] at hk
      omega
    exact absurd hin.1 (not_lt.2 hword.le)

/-- **A thread that does not find its argument**: the size of its creator is not page-aligned, and
the pointer to the string leads behind the memory of the thread. -/
theorem thread_starts_wrong : ∃ s s' : Machine, Reachable (Machine.step smallLayout) smallBoot s ∧
    Returns (threadCreator smallLayout 0 100 200 (some [97])) s () s' ∧
    (s'.kernel.proc 1).state = .runnable ∧ ¬ s'.Starts 1 100 200 (some [97]) := by
  obtain ⟨s, hrun, -, hs⟩ := exists_ok_of_runs
    [(.userinit, []), (.table (.dispatch 0 0), []), (.setEsp 0 100, []), (.sbrk 0 8292, []),
      (.setEsp 0 4200, [])]
    (startOne fun _ s' => decide ((s'.kernel.proc 1).sz = 8192 ∧
      s'.mem.userByte (s'.kernel.proc 1).pgdir ((s'.kernel.proc 1).tf.esp + 4 + 1) = some 79))
    (by decide +kernel)
  obtain ⟨-, -, s', hret, hnew, hp⟩ := started_of_startOne hs
  obtain ⟨hsz, hbyte⟩ := of_decide_eq_true hp
  refine ⟨s, s', hrun.mono fun _ _ _ => trivial, hret, hnew, fun h => ?_⟩
  obtain ⟨p, hptr, -, hend, -⟩ := h.arg
  -- the second byte of the pointer is too large for an address in the stack of the thread
  have hsecond := hptr 1 (by simp [length_wordBytes])
  rw [hbyte, Option.some.injEq] at hsecond
  have hval := congrArg UInt8.toNat hsecond
  simp [wordBytes] at hval
  rw [hsz] at hend
  unfold PGSIZE at hend
  omega

end Xv6.Memory
