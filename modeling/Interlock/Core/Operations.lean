import Interlock.Core.State

/-!
# The operations of `core/rbtree.rs`

Each function of the source has its own definition here, in the order in which the source calls
them.  Where the read and the write version of a function differ only in what they search for and
which nodes they make, they share a definition with a parameter.

A loop is bounded by `fuel` as in `Node.lean`; the loop of `unlock_*_inner` visits no pending node
twice.
-/

namespace Interlock.Core

open Memory RbTree

variable {Index Priority InProgress Output : Type} [LinearOrder Index] [LinearOrder Priority]
variable (debug : Bool) (core : Addr)

/-! ## Conflicts -/

/-- Find the lowest mutably borrowed index in the specified range. -/
def firstWriteBorrowInRange (range : Range Index) :
    CoreM Index Priority InProgress (Option Index) := do
  -- Find the first writing borrow whose end address is > range.start
  let writeNode ← onWrites core (Node.lowerBound fun e => (compare range.start e.stop).then .gt)
  match writeNode with
  | some writeNode =>
      -- ... and whose start address is < range.end
      let node ← onWrites core (Node.load writeNode)
      if node.element.start < range.stop then return some (max node.element.start range.start)
      else return none
  | none => return none

def unmatchedUpperBound : String := leftEqRight ++
  ": found a read borrow upper bound point without a matching lower bound point"

/-- Find the lowest immutably borrowed index in the specified range. -/
def firstReadBorrowInRange (range : Range Index) :
    CoreM Index Priority InProgress (Option Index) := do
  -- Find the first reading borrow endpoint whose address is > range.start
  let readNode ← onReads core (Node.lowerBound fun e => (compare range.start e.1).then .gt)
  match readNode with
  | some readNode =>
      let node ← onReads core (Node.load readNode)
      debugAssert debug (node.element.1 > range.start)
        "assertion failed: read_node.element.0 > range.start"
      -- The number of read borrows that overlap with `range.start..range.start + ε`
      let numReadsAtStart ← onReads core (Node.prefixSum readNodeCallback (some readNode))
      if numReadsAtStart.toInt > 0 then return some range.start
      else
        -- Is there a read borrow that starts in the range `range.start + ε..range.end`?
        let readStartsInMiddle := node.element.1 < range.stop
        debugAssert debug (node.element.2 == 1) unmatchedUpperBound
        if readStartsInMiddle then return some node.element.1 else return none
  | none => return none

/-- The lower one of two conflicts. -/
def lowerConflict : Option Index → Option Index → Option Index
  | none, none => none
  | one@(some _), none | none, one@(some _) => one
  | some i₀, some i₁ => some (min i₀ i₁)

/-! ## The nodes of a lock state -/

/-- `option_array2_as_ptr`: are there nodes in `ReadLockStateInner::read`?  The two cells of the
array live and die together. -/
def hasReadNodes (lock : LockPtr) : CoreM Index Priority InProgress Bool := do
  return ((← getStore).read.get (lock, false)).isSome

def hasWriteNode (lock : LockPtr) : CoreM Index Priority InProgress Bool := do
  return ((← getStore).write.get lock).isSome

def hasPendingNode (lock : LockPtr) : CoreM Index Priority InProgress Bool := do
  return ((← getStore).pending.get lock).isSome

/-- `*read_nodes_ptr.as_mut() = None` -/
def dropReadNodes (lock : LockPtr) : CoreM Index Priority InProgress Unit :=
  modifyStore fun store => { store with read := (store.read.free (lock, false)).free (lock, true) }

def dropWriteNode (lock : LockPtr) : CoreM Index Priority InProgress Unit :=
  modifyStore fun store => { store with write := store.write.free lock }

/-- Initialize the read borrow nodes, and insert them. -/
def insertReadNodes (lock : LockPtr) (range : Range Index) :
    CoreM Index Priority InProgress Unit := do
  modifyStore fun store => { store with
    read := (store.read.set (lock, false) (.new (range.start, 1) 1#64)).set (lock, true)
      (.new (range.stop, -1) (-1#64)) }
  onReads core (Node.insert debug readNodeCallback (lock, false))
  onReads core (Node.insert debug readNodeCallback (lock, true))

/-- Initialize the write borrow node, and insert it. -/
def insertWriteNode (lock : LockPtr) (range : Range Index) :
    CoreM Index Priority InProgress Unit := do
  modifyStore fun store => { store with write := store.write.set lock (.new range ()) }
  onWrites core (Node.insert debug writeNodeCallback lock)

def insertPendingNode (lock : LockPtr) (pending : Pending Index Priority InProgress) :
    CoreM Index Priority InProgress Unit := do
  debugAssert debug (!(← hasPendingNode lock)) "assertion failed: pending_node.is_none()"
  modifyStore fun store => { store with pending := store.pending.set lock (.new pending ()) }
  onPendings core (Node.insert debug pendingNodeCallback lock)

/-- Borrow a region with a lock state that has no borrowed region yet. -/
def borrowRead (lock : LockPtr) (range : Range Index) : CoreM Index Priority InProgress Unit := do
  debugAssert debug (!(← hasReadNodes lock)) "assertion failed: read_nodes.is_none()"
  insertReadNodes debug core lock range

def borrowWrite (lock : LockPtr) (range : Range Index) : CoreM Index Priority InProgress Unit := do
  debugAssert debug (!(← hasWriteNode lock)) "assertion failed: write_node.is_none()"
  insertWriteNode debug core lock range

/-- Take the pending node out of its lock state. -/
def takePending (lock : LockPtr) :
    CoreM Index Priority InProgress (PendingNode Index Priority InProgress) := do
  let node ← onPendings core (Node.load lock)
  modifyStore fun store => { store with pending := store.pending.free lock }
  return node

/-! ## Locking -/

/-- What the debug assertion for the range says. -/
def invalidRange : String := "invalid range"

/-- `panic_lock_state_in_use` -/
def stillInUse : String := "attempted to occupy a `*LockState` that is still in use"

/-- Claim a lock state. -/
def claim (lock : LockPtr) : CoreM Index Priority InProgress Unit := do
  if ((← getStore).parent lock).isSome then
    throw (.panic stillInUse)
  setParent lock (some core)

/-- What `lock_read` and `lock_write` have in common: `conflict` finds the first conflict, and
`borrow` borrows the region in front of it. -/
def lockWith (conflict : CoreM Index Priority InProgress (Option Index))
    (borrow : Range Index → CoreM Index Priority InProgress Unit) (lock : LockPtr)
    (range : Range Index) (priority : Priority) (callback : LockCallback InProgress Output) :
    CoreM Index Priority InProgress Output := do
  debugAssert debug (range.start < range.stop) invalidRange
  let (output, pending) ← (do
    match ← conflict with
    | some firstConflictIndex =>
        let (output, inProgress) := callback.inProgress
        record (.inProgress lock inProgress)
        let pending : Pending Index Priority InProgress :=
          ⟨⟨firstConflictIndex, range.stop⟩, priority, lock, inProgress⟩
        return (output, some pending)
    | none =>
        record (.lockComplete lock)
        return (callback.complete, none))
  -- The about-to-be-successfully-borrowed region
  let borrowRange := match pending with
    | some pending =>
        if pending.range.start ≠ range.start then some ⟨range.start, pending.range.start⟩ else none
    | none => some range
  claim core lock
  abortOnUnwind do
    match borrowRange with
    | some borrowRange => borrow borrowRange
    | none => pure ()
    match pending with
    | some pending => insertPendingNode debug core lock pending
    | none => pure ()
  return output

def lockRead (range : Range Index) (priority : Priority) (state : Addr)
    (callback : LockCallback InProgress Output) : CoreM Index Priority InProgress Output :=
  lockWith debug core (firstWriteBorrowInRange core range) (borrowRead debug core ⟨.read, state⟩)
    ⟨.read, state⟩ range priority callback

def lockWrite (range : Range Index) (priority : Priority) (state : Addr)
    (callback : LockCallback InProgress Output) : CoreM Index Priority InProgress Output :=
  lockWith debug core
    (do
      let firstWriteIndex ← firstWriteBorrowInRange core range
      let firstReadIndex ← firstReadBorrowInRange debug core range
      return lowerConflict firstWriteIndex firstReadIndex)
    (borrowWrite debug core ⟨.write, state⟩) ⟨.write, state⟩ range priority callback

/-- What `try_lock_read` and `try_lock_write` have in common. -/
def tryLockWith (conflict : CoreM Index Priority InProgress Bool)
    (borrow : Range Index → CoreM Index Priority InProgress Unit) (lock : LockPtr)
    (range : Range Index) : CoreM Index Priority InProgress Bool := do
  debugAssert debug (range.start < range.stop) invalidRange
  if ← conflict then return false
  claim core lock
  abortOnUnwind (borrow range)
  return true

def tryLockRead (range : Range Index) (state : Addr) : CoreM Index Priority InProgress Bool :=
  tryLockWith debug core (do return (← firstWriteBorrowInRange core range).isSome)
    (borrowRead debug core ⟨.tryRead, state⟩) ⟨.tryRead, state⟩ range

def tryLockWrite (range : Range Index) (state : Addr) : CoreM Index Priority InProgress Bool :=
  tryLockWith debug core
    (do
      if (← firstWriteBorrowInRange core range).isSome then return true
      return (← firstReadBorrowInRange debug core range).isSome)
    (borrowWrite debug core ⟨.tryWrite, state⟩) ⟨.tryWrite, state⟩ range

/-! ## Resumption -/

/-- The end of `resume_borrow` for a writer: expand the existing borrow to `newEnd`. -/
def expandWrite (lock : LockPtr) (start newEnd : Index) :
    CoreM Index Priority InProgress Unit := do
  if ← hasWriteNode lock then
    onWrites core (Node.modifyNode lock fun n =>
      { n with element := { n.element with stop := newEnd } })
  else insertWriteNode debug core lock ⟨start, newEnd⟩

/-- Move the upper endpoint of a region borrowed for reading. -/
def moveReadEnd (lock : LockPtr) (newEnd : Index) : CoreM Index Priority InProgress Unit := do
  onReads core (Node.remove debug readNodeCallback (lock, true))
  onReads core (Node.modifyNode (lock, true) fun n =>
    { n with element := (newEnd, n.element.2), summary := -1#64 })
  onReads core (Node.insert debug readNodeCallback (lock, true))

/-- The end of `resume_borrow` for a reader. -/
def expandRead (lock : LockPtr) (start newEnd : Index) :
    CoreM Index Priority InProgress Unit := do
  if ← hasReadNodes lock then moveReadEnd debug core lock newEnd
  else insertReadNodes debug core lock ⟨start, newEnd⟩

/-- Attempt to resume and potentially complete a pending borrow. -/
def resumeBorrow (pendingNode : LockPtr) : CoreM Index Priority InProgress Unit := do
  let pending := (← onPendings core (Node.load pendingNode)).element
  let parent := pending.parent
  -- The borrow resumes here
  let range := pending.range
  -- Check for conflicting borrows
  let firstConflictWriteIndex ← firstWriteBorrowInRange core range
  let firstConflictReadIndex ←
    (if parent.kind.isWrite then firstReadBorrowInRange debug core range else pure none)
  let firstConflictIndex := lowerConflict firstConflictWriteIndex firstConflictReadIndex
  -- No progress
  if firstConflictIndex = some range.start then return ()
  -- Move the node to the new conflict position
  onPendings core (Node.remove debug pendingNodeCallback pendingNode)
  (match firstConflictIndex with
    | some firstConflictIndex => do
        onPendings core (Node.modifyNode pendingNode fun n =>
          { n with element :=
            { n.element with range := { n.element.range with start := firstConflictIndex } } })
        onPendings core (Node.insert debug pendingNodeCallback pendingNode)
    | none => do
        -- This borrow is complete. Move out `in_progress`, and notify the client
        debugAssert debug (pendingNode == parent && (← hasPendingNode parent)) leftEqRight
        let node ← takePending core parent
        record (.complete parent node.element.inProgress (← getStore)))
  -- Expand the existing borrow
  let newEnd := firstConflictIndex.getD range.stop
  debugAssert debug ((← getStore).parent parent == some core) leftEqRight
  if parent.kind.isWrite then expandWrite debug core parent range.start newEnd
  else expandRead debug core parent range.start newEnd

/-! ## Unlocking -/

/-- `panic_lock_state_incorrect_parent` -/
def incorrectOrigin : String := "attempted to operate on a lock with an incorrect origin"

/-- Check a lock state's ownership. -/
def checkParent (lock : LockPtr) : CoreM Index Priority InProgress Unit := do
  if (← getStore).parent lock ≠ some core then
    throw (.panic incorrectOrigin)

/-- Cancel a pending borrow. -/
def cancelBorrow (lock : LockPtr) :
    CoreM Index Priority InProgress (Option (PendingNode Index Priority InProgress)) := do
  if ← hasPendingNode lock then
    onPendings core (Node.remove debug pendingNodeCallback lock)
    return some (← takePending core lock)
  else return none

/-- `.filter(|node| node.as_ref().element.range.start >= start)` -/
def filterFrom (start : Index) (link : Option LockPtr) :
    CoreM Index Priority InProgress (Option LockPtr) := do
  match link with
  | some node =>
      if (← onPendings core (Node.load node)).element.range.start ≥ start then return some node
      else return none
  | none => return none

/-- Find the maximum pending node that is < (stop, -∞), if it is in the range. -/
def lastPendingIn (start stop : Index) : CoreM Index Priority InProgress (Option LockPtr) := do
  let node ← onPendings core (Node.lowerBound fun e => compare stop e.range.start)
  let last ← match node with
    | some node => onPendings core (Node.predecessor node)
    | none =>
        match ((← getStore).cores core).pendings with
        | some root => some <$> onPendings core (Node.max root)
        | none => pure none
  filterFrom core start last

/-- The loop of `unlock_*_inner` along the pending nodes at `start` or above, in descending order.
`shrink index stop` unborrows `index..stop`; it returns the new values of `complete` and `stop`.
The loop returns the last value of `complete`. -/
def unlockLoop (shrink : Index → Index → CoreM Index Priority InProgress (Bool × Index))
    (start : Index) :
    ℕ → Option LockPtr → Bool → Index → CoreM Index Priority InProgress Bool
  | _, none, complete, _ => return complete
  | 0, some _, _, _ => throw .diverge
  | fuel + 1, some pendingNode, complete, stop => do
    -- Find the next pending borrow before removing this one
    let next ← filterFrom core start (← onPendings core (Node.predecessor pendingNode))
    -- Unborrow `index..stop` before resuming this pending borrow
    let index := (← onPendings core (Node.load pendingNode)).element.range.start
    debugAssert debug (start ≤ index ∧ index ≤ stop)
      "assertion failed: (&start..=&end).contains(&&index)"
    let (complete, stop) ← (if complete then pure (true, stop) else shrink index stop)
    record (.resuming pendingNode (← getStore))
    resumeBorrow debug core pendingNode
    record (.resumed pendingNode (← getStore))
    unlockLoop shrink start fuel next complete stop

def shrinkRead (lock : LockPtr) (start index stop : Index) :
    CoreM Index Priority InProgress (Bool × Index) := do
  if index = stop then return (false, stop)
  else if index = start then
    -- The unborrowing is complete
    onReads core (Node.remove debug readNodeCallback (lock, true))
    onReads core (Node.remove debug readNodeCallback (lock, false))
    dropReadNodes lock
    return (true, stop)
  else
    -- Truncate the borrow to `start..index`
    moveReadEnd debug core lock index
    return (false, index)

/-- Release a reader lock. -/
def unlockReadInner (lock : LockPtr) : CoreM Index Priority InProgress Unit := do
  if ← hasReadNodes lock then
    let start := (← onReads core (Node.load (lock, false))).element.1
    let stop := (← onReads core (Node.load (lock, true))).element.1
    let first ← lastPendingIn core start stop
    let fuel := (← getStore).pending.size
    let complete ← unlockLoop debug core (shrinkRead debug core lock start) start fuel first false
      stop
    -- We did not find a pending node whose index is exactly `start`
    if !complete then
      onReads core (Node.remove debug readNodeCallback (lock, false))
      onReads core (Node.remove debug readNodeCallback (lock, true))
      dropReadNodes lock

def shrinkWrite (lock : LockPtr) (start index stop : Index) :
    CoreM Index Priority InProgress (Bool × Index) := do
  if index = start then
    -- The unborrowing is complete
    onWrites core (Node.remove debug writeNodeCallback lock)
    dropWriteNode lock
    return (true, stop)
  else
    -- Truncate the borrow to `start..index`
    onWrites core (Node.modifyNode lock fun n =>
      { n with element := { n.element with stop := index } })
    return (false, index)

/-- Release a writer lock. -/
def unlockWriteInner (lock : LockPtr) : CoreM Index Priority InProgress Unit := do
  if ← hasWriteNode lock then
    let range := (← onWrites core (Node.load lock)).element
    let first ← lastPendingIn core range.start range.stop
    let fuel := (← getStore).pending.size
    let complete ← unlockLoop debug core (shrinkWrite debug core lock range.start) range.start fuel
      first false range.stop
    -- We did not find a pending node whose index is exactly `start`
    if !complete then
      onWrites core (Node.remove debug writeNodeCallback lock)
      dropWriteNode lock

/-- What `unlock_read` and `unlock_write` have in common. -/
def unlockWith (unlockInner : LockPtr → CoreM Index Priority InProgress Unit) (lock : LockPtr) :
    CoreM Index Priority InProgress (Option InProgress) := do
  checkParent core lock
  let removedPendingNode ← abortOnUnwind do
    let removedPendingNode ← cancelBorrow debug core lock
    -- Unborrow the (already-) borrowed region
    unlockInner lock
    return removedPendingNode
  -- Unclaim `state`
  setParent lock none
  return removedPendingNode.map (·.element.inProgress)

def unlockRead (state : Addr) : CoreM Index Priority InProgress (Option InProgress) :=
  unlockWith debug core (unlockReadInner debug core) ⟨.read, state⟩

def unlockWrite (state : Addr) : CoreM Index Priority InProgress (Option InProgress) :=
  unlockWith debug core (unlockWriteInner debug core) ⟨.write, state⟩

/-- What `unlock_try_read` and `unlock_try_write` have in common. -/
def unlockTryWith (unlockInner : LockPtr → CoreM Index Priority InProgress Unit) (lock : LockPtr) :
    CoreM Index Priority InProgress Unit := do
  checkParent core lock
  abortOnUnwind (unlockInner lock)
  setParent lock none

def unlockTryRead (state : Addr) : CoreM Index Priority InProgress Unit :=
  unlockTryWith core (unlockReadInner debug core) ⟨.tryRead, state⟩

def unlockTryWrite (state : Addr) : CoreM Index Priority InProgress Unit :=
  unlockTryWith core (unlockWriteInner debug core) ⟨.tryWrite, state⟩

/-! ## Inspection -/

/-- What `inspect_read_mut` and `inspect_write_mut` have in common. -/
def inspectWith (lock : LockPtr) : CoreM Index Priority InProgress (LockState InProgress) := do
  checkParent core lock
  match (← getStore).pending.get lock with
  | some pendingNode => return .inProgress pendingNode.element.inProgress
  | none => return .complete

def inspectReadMut (state : Addr) : CoreM Index Priority InProgress (LockState InProgress) :=
  inspectWith core ⟨.read, state⟩

def inspectWriteMut (state : Addr) : CoreM Index Priority InProgress (LockState InProgress) :=
  inspectWith core ⟨.write, state⟩

/-- Write through the reference that `inspect_*_mut` returns. -/
def writeInProgress (lock : LockPtr) (write : InProgress → InProgress) :
    CoreM Index Priority InProgress Unit :=
  onPendings core (Node.modifyNode lock fun n =>
    { n with element := { n.element with inProgress := write n.element.inProgress } })

/-! ## Calls -/

/-- A call of an operation.  The callback of a lock call returns whether the lock is complete. -/
def Call.perform :
    Call Index Priority InProgress → CoreM Index Priority InProgress (Reply InProgress)
  | .lock isWrite core state range priority inProgress => do
      let callback : LockCallback InProgress Bool := ⟨(false, inProgress), true⟩
      let complete ← (if isWrite then lockWrite debug core range priority state callback
        else lockRead debug core range priority state callback)
      return .locked complete
  | .tryLock isWrite core state range => do
      let complete ← (if isWrite then tryLockWrite debug core range state
        else tryLockRead debug core range state)
      return .locked complete
  | .unlock core ⟨.read, state⟩ => do return .unlocked (← unlockRead debug core state)
  | .unlock core ⟨.write, state⟩ => do return .unlocked (← unlockWrite debug core state)
  | .unlock core ⟨.tryRead, state⟩ => do
      unlockTryRead debug core state
      return .unlocked none
  | .unlock core ⟨.tryWrite, state⟩ => do
      unlockTryWrite debug core state
      return .unlocked none
  | .inspect isWrite core state write => do
      let lockState ← (if isWrite then inspectWriteMut core state else inspectReadMut core state)
      (match lockState with
        | .inProgress _ => writeInProgress core (lockPtr isWrite state) write
        | .complete => pure ())
      return .inspected lockState

/-! ## Destruction -/

/-- `Drop for RbTreeIntervalRwLockCore` -/
def drop : CoreM Index Priority InProgress Unit := do
  let roots := (← getStore).cores core
  if roots.reads.isSome || roots.writes.isSome || roots.pendings.isSome then
    throw (.panic "attempted to drop an `RbTreeIntervalRwLockCore` while it's locked")

/-- `EarlyDrop for *LockStateInner` -/
def earlyDrop (lock : LockPtr) : CoreM Index Priority InProgress Unit := do
  if ((← getStore).parent lock).isSome then
    throw (.panic "attempted to early-drop a `*LockState` while it's holding a lock")

end Interlock.Core
