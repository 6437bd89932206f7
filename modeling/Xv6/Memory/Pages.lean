import Xv6.Foundation.Fallible
import Xv6.Foundation.Replay
import Xv6.Processes.Table

/-! # Physical pages

`kalloc.c`, the page-table walk of `vm.c`, and the loads and stores the kernel makes through a
virtual address.

Physical memory is a map from page numbers to pages, and every page is tagged with what the kernel
has made of it: it is on the free list, belongs to the kernel itself, is a page directory or a page
table, or is ordinary memory. No code branches on a tag. Where C would go on with a page that is
used as two things at once (it walks through a page that is no page table, stores data into a page
table, or allocates a page that is not free), the code here stops as `Stop.confused`: what a kernel
does with memory it has corrupted is not part of the model.

The null pointer is `none`; a pointer to a page is its physical page number. Two data are there for
the sake of statements: `Mem.refuse` lets `kalloc` fail at any call, and `Mem.detached` records
which group of threads has detached a page and not freed it since. -/

namespace Xv6.Memory

open Foundation

/-! ## Addresses -/

/-- `PGSIZE` of `mmu.h`. -/
abbrev PGSIZE : Nat := 4096

/-- `NPDENTRIES` of `mmu.h`. -/
abbrev NPDENTRIES : Nat := 1024

/-- `EXTMEM` of `memlayout.h`. -/
abbrev EXTMEM : Nat := 0x100000

/-- `PHYSTOP` of `memlayout.h`. -/
abbrev PHYSTOP : Nat := 0xE000000

/-- `DEVSPACE` of `memlayout.h`. -/
abbrev DEVSPACE : Nat := 0xFE000000

/-- `KERNBASE` of `memlayout.h`. -/
abbrev KERNBASE : Nat := 0x80000000

/-- The number of pages in the user half of an address space. -/
abbrev UPAGES : Nat := KERNBASE / PGSIZE

/-- A physical page, by its number. -/
abbrev Frame := Nat

/-- `PGROUNDDOWN` of `mmu.h`. -/
def pgRoundDown (a : Nat) : Nat := a / PGSIZE * PGSIZE

/-- `PGROUNDUP` of `mmu.h`. -/
def pgRoundUp (a : Nat) : Nat := pgRoundDown (uint32 (a + PGSIZE - 1))

/-- `PDX` of `mmu.h`. -/
def pdx (va : Nat) : Nat := va / PGSIZE / 1024

/-- `PTX` of `mmu.h`. -/
def ptx (va : Nat) : Nat := va / PGSIZE % 1024

/-- The page that `V2P` of `memlayout.h` makes of a virtual address. -/
def v2p (va : Nat) : Frame := uint32 ((va : Int) - KERNBASE) / PGSIZE

/-- `P2V` of `memlayout.h`, of the address of a page. -/
def p2v (f : Frame) : Nat := uint32 (f * PGSIZE + KERNBASE)

/-- What the kernel image fixes: the physical addresses of `end` and of `data`, and the code of the
first process. -/
structure Layout where
  kend : Nat
  kdata : Nat
  initcode : List UInt8

/-! ## Pages -/

/-- An entry of a page table or a page directory: the page it refers to and the flags `PTE_P`,
`PTE_W` and `PTE_U`. -/
structure Pte where
  ppn : Frame
  p : Bool
  w : Bool
  u : Bool
  deriving DecidableEq, Repr

/-- The entry `0`. -/
def Pte.zero : Pte := ⟨0, false, false, false⟩

@[simp] theorem Pte.zero_p : Pte.zero.p = false := rfl

/-- The entry as the 32-bit word in memory. -/
def Pte.word (e : Pte) : Nat := e.ppn * PGSIZE + e.p.toNat + 2 * e.w.toNat + 4 * e.u.toNat

/-- A page, tagged with its use. -/
inductive Page
  /-- On the free list. -/
  | free (byte : Nat → UInt8)
  /-- The kernel's own: its image, its stacks, and what is not memory at all. -/
  | kernel (byte : Nat → UInt8)
  /-- Handed out by `kalloc` and used as plain memory. -/
  | data (byte : Nat → UInt8)
  /-- A page directory. -/
  | dir (entry : Nat → Pte)
  /-- The page table for the entry `i` of the page directory `d`. -/
  | table (d : Frame) (i : Nat) (entry : Nat → Pte)

namespace Page

/-- The page is on the free list. -/
def isFree : Page → Bool
  | .free _ => true
  | _ => false

/-- The page is ordinary memory. -/
def isData : Page → Bool
  | .data _ => true
  | _ => false

/-- The page is the kernel's own. -/
def isKernel : Page → Bool
  | .kernel _ => true
  | _ => false

/-- The page is a page directory. -/
def isDir : Page → Bool
  | .dir _ => true
  | _ => false

/-- The entries of a page directory or a page table. -/
def entries : Page → Option (Nat → Pte)
  | .dir e | .table _ _ e => some e
  | .free _ | .kernel _ | .data _ => none

/-- Entry `i` of the page, `0` if the page has no entries. -/
def entry : Page → Nat → Pte
  | .dir e, i | .table _ _ e, i => e i
  | .free _, _ | .kernel _, _ | .data _, _ => .zero

/-- Store the entry `i`. -/
def setEntry (x : Page) (i : Nat) (e : Pte) : Page :=
  match x with
  | .dir es => .dir (put es i e)
  | .table d j es => .table d j (put es i e)
  | .free _ | .kernel _ | .data _ => x

/-- The bytes of a page, whatever it is used for. -/
def byte : Page → Nat → UInt8
  | .free b, i | .kernel b, i | .data b, i => b i
  | .dir e, i | .table _ _ e, i => UInt8.ofNat ((e (i / 4)).word / 256 ^ (i % 4))

end Page

/-! ## The state of the memory -/

/-- Physical memory with the free list of `kalloc.c`. -/
structure Mem where
  page : Frame → Page
  /-- `kmem.freelist`, from its head on. -/
  freelist : List Frame
  /-- The group that unmapped the page with `detachpage`, if it was not freed since. -/
  detached : Frame → Option Int
  /-- For the next calls of `kalloc`: whether the call fails even if there is memory. -/
  refuse : List Bool

namespace Mem

/-- Replace a page. -/
@[simps -fullyApplied] def setPage (m : Mem) (f : Frame) (x : Page) : Mem :=
  { m with page := put m.page f x }

/-- Store one entry of a page directory or page table. -/
@[simps! -fullyApplied] def setEntry (m : Mem) (f : Frame) (i : Nat) (e : Pte) : Mem :=
  m.setPage f ((m.page f).setEntry i e)

/-- `kalloc` was called once. -/
@[simps -fullyApplied] def asked (m : Mem) : Mem :=
  { m with refuse := m.refuse.tail }

/-- The stores of `kalloc` when it takes the page `f` off the head of the free list. -/
@[simps -fullyApplied] def grant (m : Mem) (f : Frame) : Mem :=
  { m with page := put m.page f (.data (m.page f).byte), freelist := m.freelist.tail }

/-- The bytes of a page put on the free list: `1` everywhere, over it the link to the next page. -/
def junk (next : Option Frame) (i : Nat) : UInt8 :=
  if i < 4 then UInt8.ofNat ((next.elim 0 p2v) / 256 ^ i) else 1

/-- The stores of `kfree`. -/
@[simps -fullyApplied] def release (m : Mem) (f : Frame) : Mem :=
  { m with
    page := put m.page f (.free (junk m.freelist.head?))
    freelist := f :: m.freelist
    detached := put m.detached f none }

/-- A group has detached the page `f`. -/
@[simps -fullyApplied] def noteDetached (m : Mem) (f : Frame) (group : Int) : Mem :=
  { m with detached := put m.detached f (some group) }

/-- Entry `i` of the page directory `d`. -/
def pde (m : Mem) (d : Frame) (i : Nat) : Pte := (m.page d).entry i

/-- The page-table entry for the virtual page `n` in the page directory `d`, `0` if there is no
page table for it. -/
def pte (m : Mem) (d : Frame) (n : Nat) : Pte :=
  if (m.pde d (n / 1024)).p then (m.page (m.pde d (n / 1024)).ppn).entry (n % 1024) else .zero

end Mem

/-- Why the code does not return. -/
inductive Stop
  /-- `panic(msg)`. -/
  | panic (msg : String)
  /-- The kernel itself takes a page fault. -/
  | fault
  /-- A page is used as two things at once. -/
  | confused
  /-- The process table does not allow the step. -/
  | disabled
  deriving DecidableEq

/-- Code over the physical memory. -/
abbrev Code := Fallible Stop Mem

/-! ## The allocator -/

/-- `kfree`. -/
def kfree (L : Layout) (f : Frame) : Code Unit := do
  stopIf (f * PGSIZE < L.kend ∨ PHYSTOP ≤ f * PGSIZE) (.panic "kfree")
  modify (·.release f)

/-- `kalloc`. -/
def kalloc : Code (Option Frame) := do
  let m ← get
  modify (·.asked)
  if m.refuse.head? = some true then pure none
  else
    match m.freelist with
    | [] => pure none
    | f :: _ => do
      stopIf ((m.page f).isFree = false) .confused
      modify (·.grant f)
      pure (some f)

/-! ## Page tables -/

/-- The entries of the page `f`, which code takes for a page directory or a page table. -/
def entriesOf (f : Frame) : Code (Nat → Pte) := do
  match ((← get).page f).entries with
  | some e => pure e
  | none => throw .confused

/-- `walkpgdir`: the page table and the index in it where the entry for `va` is. -/
def walkpgdir (d : Frame) (va : Nat) (alloc : Bool) : Code (Option (Frame × Nat)) := do
  let pgdir ← entriesOf d
  if (pgdir (pdx va)).p then pure (some ((pgdir (pdx va)).ppn, ptx va))
  else if alloc then
    match ← kalloc with
    | none => pure none
    | some pgtab => do
      modify (·.setPage pgtab (.table d (pdx va) fun _ => .zero))
      modify (·.setEntry d (pdx va) ⟨pgtab, true, true, true⟩)
      pure (some (pgtab, ptx va))
  else pure none

/-- The value of `*pte`. -/
def readPte (loc : Frame × Nat) : Code Pte := do
  let e ← entriesOf loc.1
  pure (e loc.2)

/-- The store to `*pte`. -/
def writePte (loc : Frame × Nat) (e : Pte) : Code Unit :=
  modify (·.setEntry loc.1 loc.2 e)

/-- `mappages(d, va, PGSIZE, f, w | u)` for a page-aligned `va`: `false` is the return value `-1`.
The longer ranges that `setupkvm` maps are in `mapKernel`. -/
def mappages (d : Frame) (va : Nat) (f : Frame) (w u : Bool) : Code Bool := do
  match ← walkpgdir d va true with
  | none => pure false
  | some loc => do
    let pte ← readPte loc
    stopIf (pte.p = true) (.panic "remap")
    writePte loc ⟨f, true, w, u⟩
    pure true

/-! ## Loads and stores of the kernel -/

/-- The physical page that the kernel reaches at the virtual address `va` while the page directory
`d` is in use, and whether it may write there: a user page, directly mapped memory, or a device. -/
@[irreducible] def Mem.frameAt (m : Mem) (d : Frame) (va : Nat) : Option (Frame × Bool) :=
  if va < KERNBASE then
    if (m.pte d (va / PGSIZE)).p then
      some ((m.pte d (va / PGSIZE)).ppn, (m.pte d (va / PGSIZE)).w)
    else none
  else if va < KERNBASE + PHYSTOP then some ((va - KERNBASE) / PGSIZE, true)
  else if DEVSPACE ≤ va then some (va / PGSIZE, true)
  else none

/-- Load a byte. -/
def loadByte (d : Frame) (va : Nat) : Code UInt8 := do
  let m ← get
  match m.frameAt d va with
  | none => throw .fault
  | some (f, _) => pure ((m.page f).byte (va % PGSIZE))

/-- Store a byte into the page `f`. -/
def pokeByte (f : Frame) (i : Nat) (b : UInt8) : Code Unit := do
  match (← get).page f with
  | .data bytes => modify (·.setPage f (.data (put bytes i b)))
  | _ => throw .confused

/-- Store a byte at a virtual address. -/
def storeByte (d : Frame) (va : Nat) (b : UInt8) : Code Unit := do
  match (← get).frameAt d va with
  | none => throw .fault
  | some (f, w) => do
    stopIf (w = false) .fault
    pokeByte f (va % PGSIZE) b

/-- Load the 32-bit word at `va`, which need not be aligned. -/
def loadWord (d : Frame) (va : Nat) : Code Nat := do
  let b0 ← loadByte d va
  let b1 ← loadByte d (uint32 (va + 1))
  let b2 ← loadByte d (uint32 (va + 2))
  let b3 ← loadByte d (uint32 (va + 3))
  pure (b0.toNat + 256 * b1.toNat + 65536 * b2.toNat + 16777216 * b3.toNat)

/-- Store a 32-bit word at `va`. -/
def storeWord (d : Frame) (va : Nat) (x : Nat) : Code Unit := do
  storeByte d va (UInt8.ofNat x)
  storeByte d (uint32 (va + 1)) (UInt8.ofNat (x / 256))
  storeByte d (uint32 (va + 2)) (UInt8.ofNat (x / 65536))
  storeByte d (uint32 (va + 3)) (UInt8.ofNat (x / 16777216))

/-- `memmove` of the bytes `bs` to the page `f` from offset `i` on. -/
def pokeBytes (f : Frame) : Nat → List UInt8 → Code Unit
  | _, [] => pure ()
  | i, b :: bs => do
    pokeByte f i b
    pokeBytes f (i + 1) bs

end Xv6.Memory
