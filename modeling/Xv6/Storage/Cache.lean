import Xv6.Foundation.Holders
import Xv6.Foundation.Ring
import Xv6.Foundation.Runs
import Xv6.Storage.Buffers

/-! # The buffer cache under concurrency

`bread`, `bwrite` and `brelse` of `bio.c` over `iderw` and `ideintr` of `ide.c`, called by any
number of processes. The section of `bget` under `bcache.lock`, the two halves of `brelse`, the
start and the end of a disk request and every statement that changes the flags are steps of their
own.

A process may hold several buffers, so where it is, is said for each buffer. What a client has left
in a block is recorded when it releases the buffer. -/

namespace Xv6.Bcache

open Foundation Storage Function

/-- A device and a block number. -/
abbrev Blk := Nat × Nat

/-- Where a block is: `ide.c` selects the disk by `b->dev & 1`. -/
def place (b : Blk) : Nat × Nat := (b.1 % 2, b.2)

/-- `struct buf` without its lock and its pointers. -/
structure Buf where
  blk : Blk := (0, 0)
  valid : Bool := false
  dirty : Bool := false
  refcnt : Nat := 0
  data : Words := fun _ => 0

/-- What a client has done with the buffer it holds. -/
inductive Use
  /-- Nothing yet: the data is what `bread` returned. -/
  | fresh
  /-- The data was modified. -/
  | changed
  /-- `log_write` or `bwrite` came after that. -/
  | saved
  deriving DecidableEq, Repr

/-- Where a process is in its use of a buffer, for the block it asked for. -/
inductive Point
  | idle
  /-- `bget` has found the buffer, and is in `acquiresleep`. -/
  | wait (b : Blk)
  /-- `bread` has the lock and looks at `B_VALID` next. -/
  | locked (b : Blk)
  /-- `iderw` of `bread` waits for the disk. -/
  | reading (b : Blk)
  /-- `bread` has returned. -/
  | held (b : Blk) (use : Use)
  /-- `iderw` of `bwrite` waits for the disk. -/
  | writing (b : Blk)
  /-- `brelse` has released the lock, and takes `bcache.lock` next. -/
  | releasing (b : Blk)
  /-- The holder has asked for the buffer once more, and sleeps in `acquiresleep` for good. -/
  | stuck (b : Blk)
  deriving DecidableEq, Repr

namespace Point

/-- The block that the process asked for. -/
def blk : Point → Option Blk
  | .idle => none
  | .wait b | .locked b | .reading b | .held b _ | .writing b | .releasing b
  | .stuck b => some b

/-- The process holds the lock of the buffer. -/
def holds : Point → Bool
  | .locked _ | .reading _ | .held _ _ | .writing _ | .stuck _ => true
  | _ => false

/-- The process has made a request to the disk. -/
def asks : Point → Bool
  | .reading _ | .writing _ => true
  | _ => false

end Point

/-- The actions of a process on a buffer that it holds, and going on with the code it is in. -/
inductive Act
  | modify (d : Words)
  | logWrite
  | bwrite
  | brelse
  | run

/-- What the actions of one process on one buffer read and write. -/
structure View (P : Type*) where
  point : Point
  lock : Option P
  buf : Buf
  /-- What the clients have left in the block. -/
  content : Words
  idequeue : List BufId
  links : Links BufId

namespace View

variable {P : Type*} [DecidableEq P]

/-- `iderw` up to its `sleep`; `none` is a panic. The disk is started on the request at once if it
is the only one. -/
def iderw (i : BufId) (v : View P) : Option (View P) :=
  -- panic "iderw: nothing to do"
  if v.buf.valid ∧ v.buf.dirty = false then none
  -- panic "incorrect blockno" of `idestart`
  else if v.idequeue = [] ∧ FSSIZE ≤ v.buf.blk.2 then none
  else some { v with idequeue := v.idequeue ++ [i] }

/-- The next step of `bread`, `bwrite` or `brelse`; `none` while it sleeps. -/
def run (p : P) (i : BufId) (v : View P) : Option (View P) :=
  match v.point with
  | .idle | .held _ _ | .stuck _ => none
  | .wait b => if v.lock = none then some { v with lock := some p, point := .locked b } else none
  | .locked b =>
    if v.buf.valid then some { v with point := .held b .fresh }
    else iderw i { v with point := .reading b }
  | .reading b =>
    if v.buf.valid ∧ v.buf.dirty = false then some { v with point := .held b .fresh } else none
  | .writing b =>
    if v.buf.valid ∧ v.buf.dirty = false then some { v with point := .held b .saved } else none
  | .releasing _ =>
    some { v with
      buf := { v.buf with refcnt := v.buf.refcnt - 1 }
      links := if v.buf.refcnt - 1 = 0 then (v.links.remove i).insertFront i else v.links
      point := .idle }

/-- An action of `p` on the buffer `i`. The client rule: what was modified is saved before
`brelse`. -/
def next (p : P) (i : BufId) (v : View P) : Act → Option (View P)
  | .modify d =>
    match v.point with
    | .held b _ => some { v with buf := { v.buf with data := d }, point := .held b .changed }
    | _ => none
  | .logWrite =>
    match v.point with
    | .held b _ => some { v with buf := { v.buf with dirty := true }, point := .held b .saved }
    | _ => none
  | .bwrite =>
    match v.point with
    | .held b _ =>
      -- panic "bwrite" without the lock
      if v.lock ≠ some p then none
      else iderw i { v with buf := { v.buf with dirty := true }, point := .writing b }
    | _ => none
  | .brelse =>
    match v.point with
    | .held b use =>
      -- panic "brelse" without the lock
      if v.lock ≠ some p ∨ use = .changed then none
      else some { v with lock := none, content := v.buf.data, point := .releasing b }
    | _ => none
  | .run => v.run p i

end View

/-- The disks, the cache, the request queue, where the processes are, and what the clients have left
in the blocks. -/
structure Cache (P : Type*) where
  disk : Nat × Nat → Words
  buf : BufId → Buf
  lock : BufId → Option P
  links : Links BufId
  idequeue : List BufId
  point : P × BufId → Point
  content : Blk → Words

/-- The events. -/
inductive Event (P : Type*)
  | bread (p : P) (b : Blk)
  | act (p : P) (i : BufId) (a : Act)
  | ideintr

namespace Cache

variable {P : Type*} [DecidableEq P]

/-- The cache after `binit`, with any disks. -/
def boot (disk : Nat × Nat → Words) : Cache P where
  disk := disk
  buf := fun _ => {}
  lock := fun _ => none
  links := (List.finRange NBUF).foldl Links.insertFront .alone
  idequeue := []
  point := fun _ => .idle
  content := fun b => disk (place b)

/-- A buffer is handed to a process, which is then at the point `pt`. -/
@[simps -fullyApplied] def hand (s : Cache P) (p : P) (i : BufId) (x : Buf) (pt : Point) :
    Cache P :=
  { s with
    buf := update s.buf i x
    point := update s.point (p, i) pt }

/-- The first loop of `bget`. -/
def lookup (s : Cache P) (b : Blk) : Option BufId :=
  (Links.walk s.links.next NBUF (s.links.next none)).find? fun i => (s.buf i).blk = b

/-- The second loop of `bget`. -/
def unused (s : Cache P) : Option BufId :=
  (Links.walk s.links.prev NBUF (s.links.prev none)).find? fun i =>
    (s.buf i).refcnt = 0 ∧ (s.buf i).dirty = false

/-- The section of `bget` under `bcache.lock`; `none` is the panic for lack of buffers. -/
def bget (s : Cache P) (p : P) (b : Blk) : Option (Cache P) :=
  match s.lookup b with
  | some i =>
    let x := { s.buf i with refcnt := (s.buf i).refcnt + 1 }
    match s.point (p, i) with
    | .idle => some (s.hand p i x (.wait b))
    -- the lock that `acquiresleep` waits for next is the caller's own
    | .held _ _ => some (s.hand p i x (.stuck b))
    -- the process is inside another call on the buffer
    | _ => none
  | none =>
    match s.unused with
    | none => none
    | some i =>
      some (s.hand p i
        { s.buf i with blk := b, valid := false, dirty := false, refcnt := 1 } (.wait b))

/-- What `p` sees of the buffer `i`. -/
@[simps -fullyApplied] def view (s : Cache P) (p : P) (i : BufId) : View P where
  point := s.point (p, i)
  lock := s.lock i
  buf := s.buf i
  content := s.content (s.buf i).blk
  idequeue := s.idequeue
  links := s.links

/-- Put back what `p` has changed. -/
@[simps -fullyApplied] def store (s : Cache P) (p : P) (i : BufId) (v : View P) : Cache P where
  disk := s.disk
  buf := update s.buf i v.buf
  lock := update s.lock i v.lock
  links := v.links
  idequeue := v.idequeue
  point := update s.point (p, i) v.point
  content := update s.content (s.buf i).blk v.content

/-- The disk has done the request for the buffer `i`, the first one in the queue. -/
@[simps -fullyApplied] def complete (s : Cache P) (i : BufId) (q : List BufId) : Cache P :=
  { s with
    idequeue := q
    disk :=
      if (s.buf i).dirty then update s.disk (place (s.buf i).blk) (s.buf i).data else s.disk
    buf := update s.buf i
      { s.buf i with
        data := if (s.buf i).dirty then (s.buf i).data else s.disk (place (s.buf i).blk)
        valid := true
        dirty := false } }

/-- `ideintr`, without errors of the disk; it starts the disk on the next request. -/
def ideintr (s : Cache P) : Option (Cache P) :=
  match s.idequeue with
  | [] => none
  | i :: q =>
    -- panic "incorrect blockno" of `idestart`
    if ∃ j ∈ q.head?, FSSIZE ≤ (s.buf j).blk.2 then none
    else some (s.complete i q)

/-- **One step.** -/
def step (s : Cache P) : Event P → Option (Cache P)
  | .bread p b => s.bget p b
  | .act p i a => ((s.view p i).next p i a).map (s.store p i)
  | .ideintr => s.ideintr

end Cache

end Xv6.Bcache
