import Xv6.Memory.Pages

/-! # Address spaces

The functions of `vm.c` that build, copy, link and take down page directories, and the part of
`exec` that builds a new one.

A loop `for(i = 0; i < sz; i += PGSIZE)` goes through the page numbers below `pagesIn sz`; leaving
it by `goto bad` or `break` is a result of its body. -/

namespace Xv6.Memory

open Foundation

variable (L : Layout)

/-- The number of iterations of `for(i = 0; i < sz; i += PGSIZE)`. -/
def pagesIn (sz : Nat) : Nat := (sz + PGSIZE - 1) / PGSIZE

/-! ## Taking down -/

/-- The loop of `deallocuvm` from the address `a` on. The first argument bounds the number of
iterations; there are not more than there are pages. -/
def deallocLoop (d oldsz : Nat) : Nat → Nat → Code Unit
  | 0, _ => pure ()
  | n + 1, a =>
    if a < oldsz then do
      match ← walkpgdir d a false with
      -- no page table: on to the first page of the next one
      | none => deallocLoop d oldsz n ((pdx a + 1) * 1024 * PGSIZE)
      | some loc => do
        let pte ← readPte loc
        if pte.p then do
          stopIf (pte.ppn = 0) (.panic "deallocuvm/kfree")
          kfree L pte.ppn
          writePte loc .zero
          deallocLoop d oldsz n (a + PGSIZE)
        else deallocLoop d oldsz n (a + PGSIZE)
    else pure ()

/-- `deallocuvm`. -/
def deallocuvm (d oldsz newsz : Nat) : Code Nat :=
  if oldsz ≤ newsz then pure oldsz
  else do
    deallocLoop L d oldsz (pagesIn oldsz) (pgRoundUp newsz)
    pure newsz

/-- Free the page tables of `d` from the entry `lo` on: the loop of `freevm` and `freethread`. -/
def freeTables (d lo : Nat) : Code Unit :=
  (List.range' lo (NPDENTRIES - lo)).forM fun i => do
    let pgdir ← entriesOf d
    onlyIf ((pgdir i).p = true) (kfree L (pgdir i).ppn)

/-- `freevm`. -/
def freevm (d : Frame) : Code Unit := do
  let _ ← deallocuvm L d KERNBASE 0
  freeTables L d 0
  kfree L d

/-- `freethread`. The size that `deallocuvm` returns, in bytes, is where the loop over the entries
of the page directory starts. -/
def freethread (d stackBeg : Nat) : Code Unit := do
  let newsz ← deallocuvm L d KERNBASE (uint32 ((stackBeg : Int) - PGSIZE))
  freeTables L d newsz
  kfree L d

/-! ## The kernel half -/

/-- The entries of a page directory for which the ranges of `kmap` need a page table, in the order
in which `setupkvm` maps the ranges. -/
def kernelTables : List Nat := List.range' 512 56 ++ List.range' 1016 8

/-- What `kmap` makes of the virtual page `i * 1024 + j`. -/
def kmapEntry (i j : Nat) : Pte :=
  let n := i * 1024 + j
  if n < UPAGES then .zero
  else if n < UPAGES + EXTMEM / PGSIZE then ⟨n - UPAGES, true, true, false⟩
  else if (n - UPAGES) * PGSIZE < L.kdata then ⟨n - UPAGES, true, false, false⟩
  else if n < UPAGES + PHYSTOP / PGSIZE then ⟨n - UPAGES, true, true, false⟩
  else if DEVSPACE / PGSIZE ≤ n then ⟨n, true, true, false⟩
  else .zero

/-- The calls of `mappages` in `setupkvm`, page table by page table: `false` if there is no memory
for one of them. -/
def mapKernel (d : Frame) : List Nat → Code Bool
  | [] => pure true
  | i :: is => do
    match ← kalloc with
    | none => pure false
    | some pgtab => do
      modify (·.setPage pgtab (.table d i (kmapEntry L i)))
      modify (·.setEntry d i ⟨pgtab, true, true, true⟩)
      mapKernel d is

/-- `setupkvm`. -/
def setupkvm : Code (Option Frame) := do
  match ← kalloc with
  | none => pure none
  | some d => do
    modify (·.setPage d (.dir fun _ => .zero))
    if ← mapKernel L d kernelTables then pure (some d)
    else do
      freevm L d
      pure none

/-! ## Growing -/

/-- The page is filled with zeros. -/
def zeroPage (f : Frame) : Code Unit := modify (·.setPage f (.data fun _ => 0))

/-- `inituvm`. `kalloc` is not checked for failure. -/
def inituvm (d : Frame) (init : List UInt8) : Code Unit := do
  stopIf (PGSIZE ≤ init.length) (.panic "inituvm: more than a page")
  match ← kalloc with
  | none => throw .fault
  | some mem => do
    zeroPage mem
    let _ ← mappages d 0 mem true true
    pokeBytes mem 0 init

/-- One iteration of the loop of `allocuvm`, at the page `n`: a result means that there is no
memory. -/
def allocPage (d oldsz newsz n : Nat) : Code (Option Unit) := do
  match ← kalloc with
  | none => do
    let _ ← deallocuvm L d newsz oldsz
    pure (some ())
  | some mem => do
    zeroPage mem
    if ← mappages d (n * PGSIZE) mem true true then pure none
    else do
      let _ ← deallocuvm L d newsz oldsz
      kfree L mem
      pure (some ())

/-- `allocuvm`. -/
@[irreducible] def allocuvm (d oldsz newsz : Nat) : Code Nat :=
  if KERNBASE ≤ newsz then pure 0
  else if newsz < oldsz then pure oldsz
  else do
    let first := pgRoundUp oldsz / PGSIZE
    match ← untilSome (allocPage L d oldsz newsz) (List.range' first (pagesIn newsz - first)) with
    | none => pure newsz
    | some () => pure 0

/-- `palloc`: whether `mappages` succeeds is not checked. -/
def palloc (d loc : Nat) : Code Nat := do
  match ← kalloc with
  | none => pure 0
  | some mem => do
    let _ ← mappages d (pgRoundDown loc) mem true true
    pure (pgRoundDown loc)

/-- One iteration of the loop of `unmappages`, at the address `a`. For the thread group `group`
it is recorded which pages of user memory are unmapped. -/
def unmapPage (group : Int) (d a : Nat) (last : Bool) : Code (Option Nat) := do
  match ← walkpgdir d a true with
  | none => pure (some (uint32 (-1)))
  | some loc => do
    let pte ← readPte loc
    stopIf (pte.ppn = 0) (.panic "unmappage/zero_address")
    writePte loc .zero
    onlyIf (pte.p = true ∧ a < KERNBASE) (modify (·.noteDetached pte.ppn group))
    pure (if last then some (p2v pte.ppn) else none)

/-- `unmappages(d, va, PGSIZE)`: one page if `va` is page-aligned, two if it is not. -/
def unmappages (group : Int) (d va : Nat) : Code Nat := do
  if va % PGSIZE = 0 then
    return (← unmapPage group d va true).getD 0
  else
    match ← unmapPage group d (pgRoundDown va) false with
    | some r => pure r
    | none => return (← unmapPage group d (uint32 (pgRoundDown va + PGSIZE)) true).getD 0

/-- `clearpteu`. -/
def clearpteu (d uva : Nat) : Code Unit := do
  match ← walkpgdir d uva false with
  | none => throw (.panic "clearpteu")
  | some loc => do
    let pte ← readPte loc
    writePte loc { pte with u := false }

/-! ## Copying and linking -/

/-- The page-table entry that `copyuvm` and `linkuvm` find for the page `n`. -/
def presentPte (name : String) (pgdir n : Nat) : Code Pte := do
  match ← walkpgdir pgdir (n * PGSIZE) false with
  | none => throw (.panic (name ++ ": pte should exist"))
  | some loc => do
    let pte ← readPte loc
    stopIf (pte.p = false) (.panic (name ++ ": page not present"))
    pure pte

/-- `memmove(mem, P2V(pa), PGSIZE)` while `pgdir` is in use. -/
def copyPage (pgdir mem pa : Nat) : Code Unit := do
  let m ← get
  match m.frameAt pgdir (p2v pa) with
  | none => throw .fault
  | some (f, _) => modify (·.setPage mem (.data (m.page f).byte))

/-- One iteration of the loop of `copyuvm`: a result is `goto bad`. -/
def copyAt (pgdir d n : Nat) : Code (Option Unit) := do
  let pte ← presentPte "copyuvm" pgdir n
  match ← kalloc with
  | none => pure (some ())
  | some mem => do
    copyPage pgdir mem pte.ppn
    if ← mappages d (n * PGSIZE) mem pte.w pte.u then pure none
    else do
      kfree L mem
      pure (some ())

/-- `copyuvm`. -/
def copyuvm (pgdir sz : Nat) : Code (Option Frame) := do
  match ← setupkvm L with
  | none => pure none
  | some d => do
    match ← untilSome (copyAt L pgdir d) (List.range' 0 (pagesIn sz)) with
    | none => pure (some d)
    | some () => do
      freevm L d
      pure none

/-- One iteration of the loop that moves the stack contents in `linkuvm`. -/
def moveWord (pgdir sz spage i j : Nat) : Code Unit := do
  let tmp ← loadWord pgdir (uint32 (spage + j))
  if sz < tmp ∧ tmp < uint32 (sz + PGSIZE) then do
    let tmp := uint32 (tmp + ((i : Int) - sz))
    storeWord pgdir (uint32 (spage + j)) tmp
    storeWord pgdir (uint32 (i + j)) tmp
  else storeWord pgdir (uint32 (i + j)) tmp

/-- The loop that moves the stack contents in `linkuvm`: the words from `stack` to the end of its
page. -/
def moveStack (pgdir sz stack i : Nat) : Code Unit :=
  let j := stack % PGSIZE
  (List.range' 0 ((PGSIZE - j + 3) / 4)).forM fun k =>
    moveWord pgdir sz (pgRoundDown stack) i (j + 4 * k)

/-- One iteration of the loop of `linkuvm`, at the page `n`: the result `false` is `goto bad`, the
result `true` is `break`. -/
def linkAt (pgdir sz origStackBeg stack d n : Nat) : Code (Option Bool) := do
  let i := n * PGSIZE
  let pte ← presentPte "linkuvm" pgdir n
  if i < uint32 ((origStackBeg : Int) - PGSIZE) then
    -- everything before the stack is linked
    if ← mappages d i pte.ppn pte.w pte.u then pure none else pure (some false)
  else if i < origStackBeg then
    -- the inaccessible page before the stack is a new one
    match ← kalloc with
    | none => pure (some false)
    | some mem => do
      if ← mappages d i mem true false then pure none
      else do
        kfree L mem
        pure (some false)
  else
    -- the given page becomes the stack
    if ← mappages d i (v2p (pgRoundDown stack)) true true then do
      moveStack pgdir sz stack i
      pure (some true)
    else pure (some false)

/-- The loop of `linkuvm`, into the new page directory `d`. -/
def linkAll (pgdir sz origStackBeg stack d : Nat) : Code (Option Bool) :=
  untilSome (linkAt L pgdir sz origStackBeg stack d) (List.range' 0 (pagesIn sz))

/-- `linkuvm`. -/
def linkuvm (pgdir sz origStackBeg stack : Nat) : Code (Option Frame) := do
  match ← setupkvm L with
  | none => pure none
  | some d => do
    match ← linkAll L pgdir sz origStackBeg stack d with
    | some false => do
      freevm L d
      pure none
    | _ => pure (some d)

/-! ## Loading a program -/

/-- One program header of an executable, with the bytes of the file from `ph.off` on. -/
structure Segment where
  /-- The header could be read. -/
  readable : Bool
  /-- The type is `ELF_PROG_LOAD`. -/
  load : Bool
  vaddr : Nat
  memsz : Nat
  filesz : Nat
  bytes : List UInt8
  /-- The fields of the header are 32-bit words. -/
  small : vaddr < 2 ^ 32 ∧ memsz < 2 ^ 32 ∧ filesz < 2 ^ 32

/-- What `exec` finds in the file system. -/
structure Program where
  /-- The ELF header could be read and has the magic number. -/
  header : Bool
  segments : List Segment
  entry : Nat

/-- One iteration of the loop of `loaduvm`, at the offset `n * PGSIZE`: a result means that the file
is too short. -/
def loadPage (d : Frame) (s : Segment) (n : Nat) : Code (Option Unit) := do
  match ← walkpgdir d (uint32 (s.vaddr + n * PGSIZE)) false with
  | none => throw (.panic "loaduvm: address should exist")
  | some loc => do
    let pte ← readPte loc
    let len := min PGSIZE (s.filesz - n * PGSIZE)
    if n * PGSIZE + len ≤ s.bytes.length then do
      pokeBytes pte.ppn 0 ((s.bytes.drop (n * PGSIZE)).take len)
      pure none
    else pure (some ())

/-- `loaduvm`: a result is the return value `-1`. -/
def loaduvm (d : Frame) (s : Segment) : Code (Option Unit) := do
  stopIf (s.vaddr % PGSIZE ≠ 0) (.panic "loaduvm: addr must be page aligned")
  untilSome (loadPage d s) (List.range' 0 (pagesIn s.filesz))

/-- One iteration of the loop of `exec` over the program headers: the new size, `none` for
`goto bad`. -/
def loadSegment (d sz : Nat) (s : Segment) : Code (Option Nat) := do
  if s.readable = false then pure none
  else if s.load = false then pure (some sz)
  else if s.memsz < s.filesz ∨ uint32 (s.vaddr + s.memsz) < s.vaddr then pure none
  else do
    let sz ← allocuvm L d sz (uint32 (s.vaddr + s.memsz))
    if sz = 0 ∨ s.vaddr % PGSIZE ≠ 0 then pure none
    else
      match ← loaduvm d s with
      | some () => pure none
      | none => pure (some sz)

/-- The loop of `exec` over the program headers. -/
def loadSegments (d : Frame) : Nat → List Segment → Code (Option Nat)
  | sz, [] => pure (some sz)
  | sz, s :: ss => do
    match ← loadSegment L d sz s with
    | none => pure none
    | some sz => loadSegments d sz ss

/-- `uva2ka`. The entry is read even if there is no page table for it. -/
def uva2ka (d uva : Nat) : Code (Option Frame) := do
  match ← walkpgdir d uva false with
  | none => throw .fault
  | some loc => do
    let pte ← readPte loc
    pure (if pte.p ∧ pte.u then some pte.ppn else none)

/-- `copyout`, with a bound on the number of pages: `false` is the return value `-1`. -/
def copyoutLoop (d : Frame) : Nat → Nat → List UInt8 → Code Bool
  | 0, _, _ => pure true
  | k + 1, va, bs =>
    if bs = [] then pure true
    else do
      match ← uva2ka d (pgRoundDown va) with
      | none => pure false
      | some f => do
        let n := PGSIZE - va % PGSIZE
        pokeBytes f (va % PGSIZE) (bs.take n)
        copyoutLoop d k (uint32 (pgRoundDown va + PGSIZE)) (bs.drop n)

/-- `copyout`. -/
def copyout (d va : Nat) (bs : List UInt8) : Code Bool := copyoutLoop d (bs.length + 1) va bs

/-- The bytes of a list of words. -/
def wordBytes (ws : List Nat) : List UInt8 :=
  ws.flatMap fun w => [.ofNat w, .ofNat (w / 256), .ofNat (w / 65536), .ofNat (w / 16777216)]

/-- The loop of `exec` that pushes the argument strings: the stack pointer after it and the
addresses of the strings, `none` for `goto bad`. -/
def pushArgs (d : Frame) : Nat → Nat → List Nat → List (List UInt8) → Code (Option (Nat × List Nat))
  | sp, _, ptrs, [] => pure (some (sp, ptrs))
  | sp, argc, ptrs, arg :: args =>
    if MAXARG ≤ argc then pure none
    else do
      let sp := uint32 ((sp : Int) - (arg.length + 1)) / 4 * 4
      if ← copyout d sp (arg ++ [0]) then pushArgs d sp (argc + 1) (ptrs ++ [sp]) args
      else pure none

/-- The part of `exec` after the page directory `d` was set up: its size and the stack pointer,
`none` for `goto bad`. -/
def loadImage (d : Frame) (prog : Program) (args : List (List UInt8)) :
    Code (Option (Nat × Nat)) := do
  match ← loadSegments L d 0 prog.segments with
  | none => pure none
  | some sz => do
    let sz ← allocuvm L d (pgRoundUp sz) (uint32 (pgRoundUp sz + 2 * PGSIZE))
    if sz = 0 then pure none
    else do
      clearpteu d (uint32 ((sz : Int) - 2 * PGSIZE))
      match ← pushArgs d sz 0 [] args with
      | none => pure none
      | some (sp, ptrs) => do
        let argc := ptrs.length
        let ustack := [0xffffffff, argc, uint32 ((sp : Int) - (argc + 1) * 4)] ++ ptrs ++ [0]
        let sp := uint32 ((sp : Int) - (3 + argc + 1) * 4)
        if ← copyout d sp (wordBytes ustack) then pure (some (sz, sp)) else pure none

/-- `exec` up to the point where it commits: the new page directory, its size and the stack
pointer, `none` for a return with `-1`. -/
def execImage (prog : Option Program) (args : List (List UInt8)) :
    Code (Option (Frame × Nat × Nat)) := do
  match prog with
  | none => pure none
  | some prog =>
    if prog.header = false then pure none
    else
      match ← setupkvm L with
      | none => pure none
      | some d => do
        match ← loadImage L d prog args with
        | some (sz, sp) => pure (some (d, sz, sp))
        | none => do
          freevm L d
          pure none

end Xv6.Memory
