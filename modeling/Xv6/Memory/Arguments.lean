import Xv6.Foundation.LittleEndian
import Xv6.Memory.Rules

/-! # Arguments of system calls

The functions of `syscall.c` that read the arguments of a system call from the memory of the caller,
with their arithmetic modulo `2 ^ 32`.

* **`ProcSize`** — the sizes that processes come to have; none is above `KERNBASE` (`ProcSize.le`).
* **`arguments_inside`** — with such a size, what the functions accept lies in the memory of the
  caller. -/

namespace Xv6.Memory

open Foundation

/-! ## The functions -/

/-- The caller of a system call: `sz`, the saved `esp` and the bytes of its memory. -/
structure Caller where
  sz : Nat
  esp : Nat
  byte : Nat → UInt8

namespace Caller

variable (c : Caller)

/-- `fetchint`: the `int` at `addr`. -/
def fetchint (addr : Nat) : Option Int :=
  if c.sz ≤ addr ∨ c.sz < uint32 (addr + 4) then none else some (int32 (numAt c.byte addr 4))

/-- `fetchstr`: the length of the string at `addr`. -/
def fetchstr (addr : Nat) : Int :=
  if c.sz ≤ addr then -1
  else
    match (List.range' addr (c.sz - addr)).find? fun s => c.byte s = 0 with
    | none => -1
    | some s => int32 (s - addr)

/-- `argint`. -/
def argint (n : Int) : Option Int := c.fetchint (uint32 (c.esp + 4 + 4 * n))

/-- `argptr`: the pointer. -/
def argptr (n size : Int) : Option Nat :=
  match c.argint n with
  | none => none
  | some i =>
    if size < 0 ∨ c.sz ≤ uint32 i ∨ c.sz < uint32 (uint32 i + size) then none else some (uint32 i)

end Caller

/-! ## The sizes of processes -/

section

variable (L : Layout)

/-- **The sizes that processes come to have**, by `userinit`, `exec`, `fork`, `thread_create` and
`growproc`. -/
inductive ProcSize : Nat → Prop
  | userinit : ProcSize PGSIZE
  | exec {prog args m d sz sp m'} (h : Returns (execImage L prog args) m (some (d, sz, sp)) m') :
      ProcSize sz
  | fork {x m d sz tf m'} (hx : ProcSize x.sz)
      (h : Returns (forkSpace L x) m (some (d, sz, tf)) m') :
      ProcSize sz
  | threadCreate {x stack m d sz tf m'} (hx : ProcSize x.sz) (harg : argint x)
      (h : Returns (threadSpace L stack x) m (some (d, sz, tf)) m') : ProcSize sz
  | growproc {cur n s s'} (hs : ProcSize (s.kernel.proc cur).sz)
      (h : Returns (growproc L cur n) s () s') : ProcSize (s'.kernel.proc cur).sz

variable {L} {d oldsz newsz r : Nat} {m m' : Mem}

theorem allocuvm_result (h : Returns (allocuvm L d oldsz newsz) m r m') :
    r = 0 ∨ r = oldsz ∧ newsz < oldsz ∨ r = newsz ∧ newsz < KERNBASE := by
  unfold allocuvm at h
  split at h
  · exact .inl (returns_pure.1 h).1
  · split at h
    · exact .inr (.inl ⟨(returns_pure.1 h).1, ‹_›⟩)
    · obtain ⟨_ | _, _, -, h⟩ := returns_bind.1 h
      · exact .inr (.inr ⟨(returns_pure.1 h).1, not_le.1 ‹_›⟩)
      · exact .inl (returns_pure.1 h).1

theorem deallocuvm_result (h : Returns (deallocuvm L d oldsz newsz) m r m') : r ≤ oldsz := by
  unfold deallocuvm at h
  split at h
  · exact (returns_pure.1 h).1.le
  · obtain ⟨_, _, -, h⟩ := returns_bind.1 h
    have := (returns_pure.1 h).1
    omega

theorem loadSegments_result {ss : List Segment} {sz : Nat} (hsz : sz ≤ KERNBASE)
    (h : Returns (loadSegments L d sz ss) m (some r) m') : r ≤ KERNBASE := by
  induction ss generalizing sz m with
  | nil => rwa [Option.some.inj (returns_pure.1 h).1]
  | cons s ss ih =>
    obtain ⟨_ | sz', m1, hone, h⟩ := returns_bind.1 h
    · cases (returns_pure.1 h).1
    refine ih ?_ h
    unfold loadSegment at hone
    split at hone
    · cases (returns_pure.1 hone).1
    split at hone
    · rwa [Option.some.inj (returns_pure.1 hone).1]
    split at hone
    · cases (returns_pure.1 hone).1
    obtain ⟨r', m2, halloc, hone⟩ := returns_bind.1 hone
    split at hone
    · cases (returns_pure.1 hone).1
    obtain ⟨_ | _, _, -, hone⟩ := returns_bind.1 hone
    · rw [Option.some.inj (returns_pure.1 hone).1]
      have := allocuvm_result halloc
      omega
    · cases (returns_pure.1 hone).1

theorem loadImage_result {prog : Program} {args : List (List UInt8)} {sp : Nat}
    (h : Returns (loadImage L d prog args) m (some (r, sp)) m') : r ≤ KERNBASE := by
  obtain ⟨_ | sz, m1, hload, h⟩ := returns_bind.1 h
  · cases (returns_pure.1 h).1
  have hsz := loadSegments_result (Nat.zero_le _) hload
  obtain ⟨r', m2, halloc, h⟩ := returns_bind.1 h
  have hr' : r' ≤ KERNBASE := by
    have := allocuvm_result halloc
    unfold pgRoundUp pgRoundDown uint32 at this
    unfold KERNBASE PGSIZE at *
    omega
  split at h
  · cases (returns_pure.1 h).1
  obtain ⟨_, _, -, h⟩ := returns_bind.1 h
  obtain ⟨_ | _, _, -, h⟩ := returns_bind.1 h
  · cases (returns_pure.1 h).1
  obtain ⟨_ | _, _, -, h⟩ := returns_bind.1 h
  · cases (returns_pure.1 h).1
  · cases (returns_pure.1 h).1
    exact hr'

/-- **No process is larger than the lower half** of the address space. -/
theorem ProcSize.le {sz : Nat} (h : ProcSize L sz) : sz ≤ KERNBASE := by
  induction h with
  | userinit => decide
  | @exec prog args m d sz sp m' h =>
    unfold execImage at h
    split at h
    · cases (returns_pure.1 h).1
    split at h
    · cases (returns_pure.1 h).1
    obtain ⟨_ | d, _, -, h⟩ := returns_bind.1 h
    · cases (returns_pure.1 h).1
    obtain ⟨_ | _, _, hload, h⟩ := returns_bind.1 h
    · obtain ⟨_, _, -, h⟩ := returns_bind.1 h
      cases (returns_pure.1 h).1
    · cases (returns_pure.1 h).1
      exact loadImage_result hload
  | fork _ h ih =>
    obtain ⟨_ | _, _, -, h⟩ := returns_bind.1 h
    · cases (returns_pure.1 h).1
    · cases (returns_pure.1 h).1
      exact ih
  | @threadCreate x _ _ _ sz _ _ _ harg h ih =>
    obtain ⟨_ | _, _, -, h⟩ := returns_bind.1 h
    · cases (returns_pure.1 h).1
    obtain ⟨_, _, -, h⟩ := returns_bind.1 h
    have hsz : sz = uint32 (pgRoundDown x.tf.esp + PGSIZE) :=
      congrArg (·.2.1) (Option.some.inj (returns_pure.1 h).1)
    -- the argument is below the size, or the stack pointer is at the end of the address space
    have hlt := harg.1
    unfold uint32 pgRoundDown at *
    unfold KERNBASE PGSIZE at *
    omega
  | @growproc cur n s s' _ h ih =>
    obtain ⟨x, s, hx, h⟩ := returns_bind.1 h
    obtain ⟨rfl, rfl⟩ := returns_procOf.1 hx
    have hset : ∀ {r} {m : Mem} {s'}, r ≤ KERNBASE →
        Returns (onlyIf (r ≠ 0) (modify (·.modify cur (withSize r))) : Sys Unit)
          (s.setMem m) () s' →
        (s'.kernel.proc cur).sz ≤ KERNBASE := by
      intro r m s' hr h
      obtain ⟨-, h⟩ | ⟨-, rfl⟩ := returns_onlyIf.1 h
      · obtain rfl := returns_modify.1 h
        simpa using hr
      · exact ih
    split at h
    · obtain ⟨r, _, hr, h⟩ := returns_bind.1 h
      obtain ⟨m', hmem, rfl⟩ := returns_onMem.1 hr
      have := allocuvm_result hmem
      exact hset (by omega) h
    split at h
    · obtain ⟨r, _, hr, h⟩ := returns_bind.1 h
      obtain ⟨m', hmem, rfl⟩ := returns_onMem.1 hr
      exact hset ((deallocuvm_result hmem).trans ih) h
    · rwa [(returns_pure.1 h).2]

/-! ## The arguments -/

/-- **Argument fetching never leaves the process**: a word, a block or a string is accepted only if
it lies below the size of the process, and a string is refused only if it does not. -/
theorem arguments_inside {c : Caller} (h : ProcSize L c.sz) :
    (∀ addr, c.fetchint addr ≠ none → addr + 4 ≤ c.sz) ∧
    (∀ n size p, size < 2 ^ 31 → c.argptr n size = some p → 0 ≤ size ∧ p + size ≤ c.sz) ∧
    ∀ addr,
      (∀ len : Nat, c.fetchstr addr = len → addr + len < c.sz ∧ c.byte (addr + len) = 0 ∧
        ∀ a, addr ≤ a → a < addr + len → c.byte a ≠ 0) ∧
      (c.fetchstr addr = -1 → c.sz ≤ addr ∨ ∀ a, addr ≤ a → a < c.sz → c.byte a ≠ 0) := by
  have hle := h.le
  unfold KERNBASE at hle
  refine ⟨fun addr hok => ?_, fun n size p hsize hok => ?_, fun addr => ?_⟩
  · unfold Caller.fetchint at hok
    split at hok
    · cases hok rfl
    · unfold uint32 at *
      omega
  · unfold Caller.argptr at hok
    split at hok
    · cases hok
    · split at hok
      · cases hok
      · cases hok
        unfold uint32 at *
        omega
  · unfold Caller.fetchstr
    split
    · exact ⟨fun len h => by omega, fun _ => .inl ‹_›⟩
    split
    · rename_i hnone
      rw [List.find?_range'_eq_none] at hnone
      exact ⟨fun len h => by omega, fun _ => .inr fun a h1 h2 => by
        simpa using hnone a h1 (by omega)⟩
    · rename_i e he
      obtain ⟨h0, hmem, hfirst⟩ := List.find?_range'_eq_some.1 he
      have := List.mem_range'_1.1 hmem
      rw [int32_eq (by omega) (by omega)]
      refine ⟨fun len hlen => ?_, fun h => by omega⟩
      obtain rfl : e = addr + len := by omega
      exact ⟨by omega, by simpa using h0, fun a h1 h2 => by simpa using hfirst a h1 h2⟩

/-- The first process passes 0 as a pointer to eight bytes. -/
theorem arguments_inside_first :
    (⟨PGSIZE, 4088, fun _ => 0⟩ : Caller).argptr 0 8 = some 0 ∧ ((0 : Nat) + 8 : Int) ≤ PGSIZE :=
  have h : (⟨PGSIZE, 4088, fun _ => 0⟩ : Caller).argptr 0 8 = some 0 := by decide
  have hsize : ProcSize ⟨0x115000, 0x109000, [0]⟩ PGSIZE := .userinit
  ⟨h, ((arguments_inside hsize).2.1 0 8 0 (by decide) h).2⟩

end

end Xv6.Memory
