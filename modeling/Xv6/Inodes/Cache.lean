import Mathlib.Algebra.Ring.Nat
import Xv6.Foundation.Holders
import Xv6.Foundation.Runs
import Xv6.Params

/-! # The inode cache

`iget`, `idup`, `ilock`, `iupdate`, `iunlock` and `iput` of `fs.c`, run by any number of processes.
Every section under `icache.lock` and every access to a block of inodes is a step, and so is every
statement in between that reads or writes a field other processes can see.

A reference that was handed out is *live* until its `iput` begins. Who keeps it (a local variable,
`p->cwd`, an open file that several processes share) does not matter to the cache, so a state only
counts the live references; the clients keep to two rules: an entry is used through a live
reference, and the last live reference is not put while the entry is in use.

The disk is the contents of the blocks of inodes as `bread` returns them. -/

namespace Xv6.Inodes

open Foundation Function

/-- `NDIRECT` of `fs.h`: direct blocks of an inode. -/
abbrev NDIRECT : Nat := 12

/-- A device and the number of an inode on it. -/
abbrev Ino := Nat × Nat

/-- An entry of `icache.inode`. -/
abbrev Entry := Fin NINODE

instance : NeZero NINODE := ⟨by decide⟩

/-- `struct dinode`, also the part of `struct inode` that is a copy of it. -/
structure Dinode where
  type : Nat := 0
  major : Int := 0
  minor : Int := 0
  nlink : Int := 0
  size : Nat := 0
  addrs : Fin (NDIRECT + 1) → Nat := fun _ => 0
  deriving DecidableEq

/-- `struct inode` without its lock. -/
structure Inode where
  ino : Ino := (0, 0)
  ref : Int := 0
  valid : Bool := false
  data : Dinode := {}
  deriving DecidableEq

/-- Where a process is in its use of an entry. -/
inductive Point
  | idle
  /-- In `acquiresleep` of `ilock`. -/
  | ilockWait
  /-- `ilock` has the lock and looks at `valid` next. -/
  | ilockHave
  /-- `ilock` has copied the inode from its block and sets `valid` next. -/
  | ilockRead
  /-- Between `ilock` and `iunlock`. -/
  | inside
  /-- There, after a modification whose `iupdate` comes next. -/
  | dirty
  /-- In `acquiresleep` of `iput`. -/
  | iputWait
  /-- `iput` has the lock and looks at `valid` and `nlink` next. -/
  | iputHave
  /-- `iput` reads `ref` under `icache.lock` next. -/
  | iputRef
  /-- `iput` has read `r == 1` and calls `itrunc` next. -/
  | iputTrunc
  /-- `itrunc` has emptied the copy in memory and calls `iupdate` next. -/
  | iputTruncated
  /-- `iput` sets `type` to 0 next. -/
  | iputFree
  /-- `iput` calls `iupdate` next. -/
  | iputUpdate
  /-- `iput` clears `valid` next. -/
  | iputInvalid
  /-- `iput` releases the lock next. -/
  | iputRelease
  /-- `iput` decrements `ref` under `icache.lock` next. -/
  | iputDrop
  deriving DecidableEq, Repr

namespace Point

/-- The process holds the lock of the entry. -/
def locked : Point → Bool
  | .idle | .ilockWait | .iputWait | .iputDrop => false
  | _ => true

/-- The process uses the entry through a live reference. -/
def isUser : Point → Bool
  | .ilockWait | .ilockHave | .ilockRead | .inside | .dirty => true
  | _ => false

/-- An `iput` is in progress. -/
def isPut : Point → Bool
  | .idle => false
  | pt => !pt.isUser

end Point

/-- The actions of a process on an entry: to call `ilock`, `iunlock` or `iput`, to modify the copy
in memory under the lock, and to go on with the code it is in. -/
inductive Act
  | ilock
  | modify (d : Dinode)
  | iunlock
  | iput
  | run
  deriving DecidableEq

/-- What the actions of one process on one entry read and write. -/
structure View (P : Type*) where
  point : Point
  lock : Option P
  live : Nat
  ip : Inode
  dip : Dinode

namespace View

variable {P : Type*} [DecidableEq P]

/-- The next step of `ilock`, `iupdate` and `iput` by `p`; `none` while it waits, and on a panic. -/
def run (p : P) (v : View P) : Option (View P) :=
  match v.point with
  | .idle | .inside => none
  | .ilockWait =>
    if v.lock = none then some { v with lock := some p, point := .ilockHave } else none
  | .ilockHave =>
    if v.ip.valid then some { v with point := .inside }
    else some { v with ip := { v.ip with data := v.dip }, point := .ilockRead }
  | .ilockRead =>
    -- panic "ilock: no type"
    if v.ip.data.type = 0 then none
    else some { v with ip := { v.ip with valid := true }, point := .inside }
  | .dirty => some { v with dip := v.ip.data, point := .inside }
  | .iputWait => if v.lock = none then some { v with lock := some p, point := .iputHave } else none
  | .iputHave =>
    some { v with point := if v.ip.valid ∧ v.ip.data.nlink = 0 then .iputRef else .iputRelease }
  | .iputRef => some { v with point := if v.ip.ref = 1 then .iputTrunc else .iputRelease }
  | .iputTrunc =>
    some { v with
      ip := { v.ip with data := { v.ip.data with size := 0, addrs := fun _ => 0 } }
      point := .iputTruncated }
  | .iputTruncated => some { v with dip := v.ip.data, point := .iputFree }
  | .iputFree =>
    some { v with ip := { v.ip with data := { v.ip.data with type := 0 } }, point := .iputUpdate }
  | .iputUpdate => some { v with dip := v.ip.data, point := .iputInvalid }
  | .iputInvalid => some { v with ip := { v.ip with valid := false }, point := .iputRelease }
  | .iputRelease => some { v with lock := none, point := .iputDrop }
  | .iputDrop => some { v with ip := { v.ip with ref := v.ip.ref - 1 }, point := .idle }

/-- An action of `p`. The clients never set the type of an inode to 0. -/
def next (p : P) (v : View P) : Act → Option (View P)
  | .ilock =>
    -- panic "ilock" without a reference
    if v.point = .idle ∧ 0 < v.live ∧ 1 ≤ v.ip.ref then some { v with point := .ilockWait }
      else none
  | .modify d =>
    if v.point = .inside ∧ d.type ≠ 0 then
      some { v with ip := { v.ip with data := d }, point := .dirty }
    else none
  | .iunlock =>
    -- panic "iunlock" without the lock or a reference
    if v.point = .inside ∧ v.lock = some p ∧ 1 ≤ v.ip.ref then
      some { v with lock := none, point := .idle }
    else none
  | .iput =>
    if v.point = .idle ∧ 0 < v.live then some { v with live := v.live - 1, point := .iputWait }
    else none
  | .run => v.run p

end View

/-- The disk, the cache, the live references and where the processes are. -/
structure Icache (P : Type*) where
  disk : Ino → Dinode
  entry : Entry → Inode
  lock : Entry → Option P
  live : Entry → Nat
  point : P × Entry → Point

/-- The events: a process finds or copies a reference, allocates an inode on the disk, or acts on an
entry. -/
inductive Event (P : Type*)
  | iget (ino : Ino)
  | idup (e : Entry)
  | ialloc (ino : Ino) (type : Nat)
  | act (p : P) (e : Entry) (a : Act)
  deriving DecidableEq

namespace Icache

variable {P : Type*} [DecidableEq P]

/-- The cache after `iinit`. -/
def boot (disk : Ino → Dinode) : Icache P where
  disk := disk
  entry := fun _ => {}
  lock := fun _ => none
  live := fun _ => 0
  point := fun _ => .idle

/-- Store into an entry and hand out a reference to it. -/
@[simps] def handOut (s : Icache P) (e : Entry) (ip : Inode) : Icache P :=
  { s with entry := update s.entry e ip, live := update s.live e (s.live e + 1) }

/-- The entry in use for an inode. -/
def cached (s : Icache P) (ino : Ino) : Option Entry :=
  (List.finRange NINODE).find? fun e => 0 < (s.entry e).ref ∧ (s.entry e).ino = ino

/-- The first free entry. -/
def empty (s : Icache P) : Option Entry :=
  (List.finRange NINODE).find? fun e => (s.entry e).ref = 0

/-- `iget`; `none` is the panic for lack of entries. -/
def iget (s : Icache P) (ino : Ino) : Option (Icache P) :=
  match s.cached ino with
  | some e => some (s.handOut e { s.entry e with ref := (s.entry e).ref + 1 })
  | none =>
    match s.empty with
    | none => none
    | some e => some (s.handOut e { s.entry e with ino := ino, ref := 1, valid := false })

/-- What `p` sees of the entry `e`. -/
@[simps] def view (s : Icache P) (p : P) (e : Entry) : View P where
  point := s.point (p, e)
  lock := s.lock e
  live := s.live e
  ip := s.entry e
  dip := s.disk (s.entry e).ino

/-- Put back what `p` has changed. -/
@[simps] def store (s : Icache P) (p : P) (e : Entry) (v : View P) : Icache P where
  disk := update s.disk (s.entry e).ino v.dip
  entry := update s.entry e v.ip
  lock := update s.lock e v.lock
  live := update s.live e v.live
  point := update s.point (p, e) v.point

variable [Fintype P]

/-- The rule for putting references: the last live one only when nobody uses the entry. -/
def mayPut (s : Icache P) (e : Entry) : Prop :=
  1 < s.live e ∨ ∀ q, (s.point (q, e)).isUser = false

instance (s : Icache P) (e : Entry) : Decidable (s.mayPut e) :=
  inferInstanceAs (Decidable (_ ∨ _))

/-- **One step.** `ialloc` takes an inode that is free on the disk, and calls `iget` afterwards. -/
def step (s : Icache P) : Event P → Option (Icache P)
  | .iget ino => s.iget ino
  | .idup e =>
    if 0 < s.live e then some (s.handOut e { s.entry e with ref := (s.entry e).ref + 1 }) else none
  | .ialloc ino type =>
    if (s.disk ino).type = 0 ∧ type ≠ 0 then
      some { s with disk := update s.disk ino { type := type } }
    else none
  | .act p e a =>
    if a = .iput → s.mayPut e then ((s.view p e).next p a).map (s.store p e) else none

end Icache

end Xv6.Inodes
