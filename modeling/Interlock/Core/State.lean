import Interlock.RbTree.Node

/-!
# The data of `core/rbtree.rs`

A core holds the roots of three trees.  Their nodes are stored inside the lock states: a lock state
has up to three optional fields, and here each kind of field is a memory of its own, in which a live
cell is a field that is `Some`.

* `read`: the two endpoints of a region borrowed for reading, `(lock, false)` being the lower one.
* `write`: a region borrowed for writing.
* `pending`: the rest of a request that waits.

Next to the memory a `World` has a log of what the client of the core observes: the calls of its
callbacks, and what the memory looks like at certain points.
-/

namespace Interlock.Core

open Memory RbTree

/-- A non-null address of a 64-bit machine at which a pointer can be stored, in words. -/
structure Addr where
  word : ℕ
  nonNull : 0 < word
  bounded : word < 2 ^ 61
  deriving DecidableEq

/-- The four types of lock states. -/
inductive LockKind where
  | read
  | write
  | tryRead
  | tryWrite
  deriving DecidableEq, Repr

/-- A pointer to a lock state.  The source's `LockStatePtr` is one whose kind is `read` or
`write`. -/
structure LockPtr where
  kind : LockKind
  addr : Addr
  deriving DecidableEq

def LockKind.isWrite : LockKind → Bool
  | .read | .tryRead => false
  | .write | .tryWrite => true

/-- The lock state of a waiting lock. -/
def lockPtr (isWrite : Bool) (state : Addr) : LockPtr := ⟨if isWrite then .write else .read, state⟩

/-- The lock state of a non-blocking lock. -/
def tryLockPtr (isWrite : Bool) (state : Addr) : LockPtr :=
  ⟨if isWrite then .tryWrite else .tryRead, state⟩

theorem lockPtr_kind (isWrite : Bool) (state : Addr) :
    (lockPtr isWrite state).kind = .read ∨ (lockPtr isWrite state).kind = .write := by
  cases isWrite
  · exact Or.inl rfl
  · exact Or.inr rfl

@[simp] theorem lockPtr_isWrite (isWrite : Bool) (state : Addr) :
    (lockPtr isWrite state).kind.isWrite = isWrite := by
  cases isWrite <;> rfl

@[simp] theorem tryLockPtr_isWrite (isWrite : Bool) (state : Addr) :
    (tryLockPtr isWrite state).kind.isWrite = isWrite := by
  cases isWrite <;> rfl

/-- `start..stop` -/
structure Range (Index : Type) where
  start : Index
  stop : Index
  deriving DecidableEq

/-- A pending borrow. -/
structure Pending (Index Priority InProgress : Type) where
  /-- The next index range to borrow. -/
  range : Range Index
  priority : Priority
  /-- The lock state that contains this value. -/
  parent : LockPtr
  /-- What the client gets back when this pending borrow operation completes. -/
  inProgress : InProgress

/-- The address of a node in `ReadLockStateInner::read`. -/
abbrev ReadPtr := LockPtr × Bool

/-- An endpoint of an immutable borrow: `(index, 1)` is a lower bound, `(index, -1)` an upper
bound.  The summary is an `isize`. -/
abbrev ReadNode (Index : Type) := Node ReadPtr (Index × Int) (BitVec 64)

/-- A mutable borrow. -/
abbrev WriteNode (Index : Type) := Node LockPtr (Range Index) Unit

abbrev PendingNode (Index Priority InProgress : Type) :=
  Node LockPtr (Pending Index Priority InProgress) Unit

/-- `LockCallback`: a lock operation calls one of its two methods. -/
structure LockCallback (InProgress Output : Type) where
  inProgress : Output × InProgress
  complete : Output

/-- `LockState` -/
inductive LockState (InProgress : Type) where
  | inProgress (inProgress : InProgress)
  | complete
  deriving DecidableEq

/-! ## The callbacks of the trees -/

section Callbacks
variable {Index Priority InProgress : Type} [LinearOrder Index] [LinearOrder Priority]

/-- The summary of nodes is the sum of their `element.1` values. -/
def readNodeCallback : Callback (Index × Int) (BitVec 64) where
  zeroSummary := 0
  elementToSummary element := BitVec.ofInt 64 element.2
  addAssignSummary lhs rhs := lhs + rhs
  subAssignSummary lhs rhs := lhs - rhs
  cmpElement e₁ e₂ := compare e₁.1 e₂.1

def writeNodeCallback : Callback (Range Index) Unit where
  zeroSummary := ()
  elementToSummary _ := ()
  addAssignSummary _ _ := ()
  subAssignSummary _ _ := ()
  cmpElement e₁ e₂ := compare e₁.start e₂.start

/-- When they are tied, sort in the reverse insertion order. -/
def pendingNodeCallback : Callback (Pending Index Priority InProgress) Unit where
  zeroSummary := ()
  elementToSummary _ := ()
  addAssignSummary _ _ := ()
  subAssignSummary _ _ := ()
  cmpElement new existing :=
    ((compare new.range.start existing.range.start).then
      (compare new.priority existing.priority)).then .lt

end Callbacks

/-! ## The state -/

/-- `RbTreeIntervalRwLockCore` -/
structure Roots where
  reads : Option ReadPtr
  writes : Option LockPtr
  pendings : Option LockPtr

/-- `RbTreeIntervalRwLockCore::new` -/
def Roots.new : Roots := ⟨none, none, none⟩

/-- The cores and the fields of all lock states. -/
structure Store (Index Priority InProgress : Type) where
  cores : Addr → Roots
  parent : LockPtr → Option Addr
  read : Heap ReadPtr (ReadNode Index)
  write : Heap LockPtr (WriteNode Index)
  pending : Heap LockPtr (PendingNode Index Priority InProgress)

/-! ## What a client sees -/

/-- A call of an operation.  A lock call carries the value that its callback makes if the lock has
to wait.  `inspect` returns a reference to this value; `write` is what the caller does with it. -/
inductive Call (Index Priority InProgress : Type) where
  | lock (isWrite : Bool) (core state : Addr) (range : Range Index) (priority : Priority)
      (inProgress : InProgress)
  | tryLock (isWrite : Bool) (core state : Addr) (range : Range Index)
  | unlock (core : Addr) (lock : LockPtr)
  | inspect (isWrite : Bool) (core state : Addr) (write : InProgress → InProgress)

inductive Reply (InProgress : Type) where
  | locked (complete : Bool)
  | unlocked (inProgress : Option InProgress)
  | inspected (state : LockState InProgress)
  deriving DecidableEq

/-- `Mem` is how the state of the memory is described. -/
inductive Event (Index Priority InProgress Mem : Type) where
  /-- `LockCallback::in_progress` is called, and makes this value. -/
  | inProgress (lock : LockPtr) (inProgress : InProgress)
  /-- `LockCallback::complete` is called. -/
  | lockComplete (lock : LockPtr)
  /-- `UnlockCallback::complete` is called. -/
  | complete (lock : LockPtr) (inProgress : InProgress) (mem : Mem)
  /-- `resume_borrow` is called. -/
  | resuming (lock : LockPtr) (mem : Mem)
  /-- A call of `resume_borrow` returns. -/
  | resumed (lock : LockPtr) (mem : Mem)
  | returned (call : Call Index Priority InProgress) (reply : Reply InProgress) (mem : Mem)
  | panicked (call : Call Index Priority InProgress)

variable {Index Priority InProgress α : Type}

/-- The memory that an event shows. -/
def Event.mem {Mem : Type} : Event Index Priority InProgress Mem → Option Mem
  | .complete _ _ mem | .resuming _ mem | .resumed _ mem | .returned _ _ mem => some mem
  | .inProgress .. | .lockComplete _ | .panicked _ => none

/-- The range of `p`, going by the calls that have returned: that of the last lock call, unless `p`
has been unlocked since. -/
def requested {Mem : Type} (p : LockPtr) :
    List (Event Index Priority InProgress Mem) → Option (Range Index)
  | [] => none
  | .returned (.lock isWrite _ state range _ _) (.locked _) _ :: log =>
      if lockPtr isWrite state = p then some range else requested p log
  | .returned (.tryLock isWrite _ state range) (.locked true) _ :: log =>
      if tryLockPtr isWrite state = p then some range else requested p log
  | .returned (.unlock _ q) _ _ :: log => if q = p then none else requested p log
  | _ :: log => requested p log

/-- The calls of `UnlockCallback::complete`, newest first. -/
def completions {Mem : Type} (log : List (Event Index Priority InProgress Mem)) :
    List (LockPtr × InProgress) :=
  log.filterMap fun event =>
    match event with
    | .complete lock inProgress _ => some (lock, inProgress)
    | _ => none

/-- The beginnings of calls of `resume_borrow`, newest first: the waiter and the memory. -/
def resumings {Mem : Type} (log : List (Event Index Priority InProgress Mem)) :
    List (LockPtr × Mem) :=
  log.filterMap fun event =>
    match event with
    | .resuming lock mem => some (lock, mem)
    | _ => none

/-- `p` has been waiting for longer than `q`: going back in the log, there is a point at which `p`
waited and `q` did not, and `p` has waited ever since. -/
def Longer {Mem : Type} (waits : Mem → LockPtr → Prop) (p q : LockPtr) :
    List (Event Index Priority InProgress Mem) → Prop
  | [] => False
  | event :: log =>
      match event.mem with
      | some mem => waits mem p ∧ (¬ waits mem q ∨ Longer waits p q log)
      | none => Longer waits p q log

/-- The log of a call of `resume_borrow` for `p`, which started with the memory `mem`. -/
def Resumes {Mem : Type} (p : LockPtr) (mem : Mem)
    (before log : List (Event Index Priority InProgress Mem)) : Prop :=
  log = .resuming p mem :: before ∨
    ∃ q inProgress mem', log = .complete q inProgress mem' :: .resuming p mem :: before

/-- A call of `resume_borrow`: the waiter, the memory before and after the call, and what came
before it. -/
structure Resumption (Index Priority InProgress Mem : Type) where
  lock : LockPtr
  before : Mem
  after : Mem
  log : List (Event Index Priority InProgress Mem)

/-- The call of `resume_borrow` that returns with `event`. -/
def resumption {Mem : Type} (event : Event Index Priority InProgress Mem)
    (log : List (Event Index Priority InProgress Mem)) :
    Option (Resumption Index Priority InProgress Mem) :=
  match event, log with
  | .resumed p after, .resuming q before :: log =>
      if p = q then some ⟨p, before, after, log⟩ else none
  | .resumed p after, .complete _ _ _ :: .resuming q before :: log =>
      if p = q then some ⟨p, before, after, log⟩ else none
  | _, _ => none

/-- All calls of `resume_borrow`, newest first. -/
def resumptions {Mem : Type} : List (Event Index Priority InProgress Mem) →
    List (Resumption Index Priority InProgress Mem)
  | [] => []
  | event :: log => (resumption event log).toList ++ resumptions log

/-- Every event of a log satisfies `P`, with what comes before it. -/
def Logged {Mem : Type} (P : Event Index Priority InProgress Mem →
    List (Event Index Priority InProgress Mem) → Prop) :
    List (Event Index Priority InProgress Mem) → Prop
  | [] => True
  | event :: log => P event log ∧ Logged P log

/-- The events in a store, newest first. -/
abbrev Log (Index Priority InProgress : Type) :=
  List (Event Index Priority InProgress (Store Index Priority InProgress))

structure World (Index Priority InProgress : Type) where
  store : Store Index Priority InProgress
  log : Log Index Priority InProgress

abbrev CoreM (Index Priority InProgress : Type) := EStateM Fault (World Index Priority InProgress)

namespace Store
variable (store : Store Index Priority InProgress) (core : Addr)

/-- No core is in use, and no lock state. -/
def init : Store Index Priority InProgress where
  cores := fun _ => .new
  parent := fun _ => none
  read := .empty
  write := .empty
  pending := .empty

/-- `self.reads` with the memory of its nodes. -/
def readTree : TreeMem ReadPtr (Index × Int) (BitVec 64) := ⟨(store.cores core).reads, store.read⟩

def writeTree : TreeMem LockPtr (Range Index) Unit := ⟨(store.cores core).writes, store.write⟩

def pendingTree : TreeMem LockPtr (Pending Index Priority InProgress) Unit :=
  ⟨(store.cores core).pendings, store.pending⟩

def setReadTree (mem : TreeMem ReadPtr (Index × Int) (BitVec 64)) :
    Store Index Priority InProgress where
  cores := Function.update store.cores core { store.cores core with reads := mem.tree }
  parent := store.parent
  read := mem.heap
  write := store.write
  pending := store.pending

def setWriteTree (mem : TreeMem LockPtr (Range Index) Unit) : Store Index Priority InProgress where
  cores := Function.update store.cores core { store.cores core with writes := mem.tree }
  parent := store.parent
  read := store.read
  write := mem.heap
  pending := store.pending

def setPendingTree (mem : TreeMem LockPtr (Pending Index Priority InProgress) Unit) :
    Store Index Priority InProgress where
  cores := Function.update store.cores core { store.cores core with pendings := mem.tree }
  parent := store.parent
  read := store.read
  write := store.write
  pending := mem.heap

end Store

/-! ## Access to the state -/

def onReads (core : Addr) (m : TreeM ReadPtr (Index × Int) (BitVec 64) α) :
    CoreM Index Priority InProgress α :=
  zoom (·.store.readTree core)
    (fun mem world => { world with store := world.store.setReadTree core mem }) m

def onWrites (core : Addr) (m : TreeM LockPtr (Range Index) Unit α) :
    CoreM Index Priority InProgress α :=
  zoom (·.store.writeTree core)
    (fun mem world => { world with store := world.store.setWriteTree core mem }) m

def onPendings (core : Addr) (m : TreeM LockPtr (Pending Index Priority InProgress) Unit α) :
    CoreM Index Priority InProgress α :=
  zoom (·.store.pendingTree core)
    (fun mem world => { world with store := world.store.setPendingTree core mem }) m

def getStore : CoreM Index Priority InProgress (Store Index Priority InProgress) := do
  return (← get).store

def modifyStore (f : Store Index Priority InProgress → Store Index Priority InProgress) :
    CoreM Index Priority InProgress Unit :=
  modify fun world => { world with store := f world.store }

def record (event : Event Index Priority InProgress (Store Index Priority InProgress)) :
    CoreM Index Priority InProgress Unit :=
  modify fun world => { world with log := event :: world.log }

/-- `state.parent.set(parent)` -/
def setParent (lock : LockPtr) (parent : Option Addr) : CoreM Index Priority InProgress Unit :=
  modifyStore fun store => { store with parent := Function.update store.parent lock parent }

end Interlock.Core
