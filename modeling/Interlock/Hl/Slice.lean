import Interlock.Core.Delivery
import Interlock.Core.Safety
import Interlock.Core.Visits

/-!
# The guards of a slice

`hl/slice.rs`: a slice of `len` elements, and a core that locks ranges of its indices.  An operation
checks that its range lies in the slice, which an empty range may do, locks the range, and returns a
guard with a pointer to the elements of the range.

`read` and `write` are for the raw lock of `raw/sync.rs`.  They wait there until their flag is set,
and this happens when the core takes the pending node out of the lock state.  `async_read` and
`async_write` are for the raw lock of `raw/future.rs`.  What the core keeps for the callback of the
raw lock is a parameter.

A run goes on after a panic that has been caught, as it does with the local and the asynchronous
lock.  The mutex of `raw/sync.rs` is poisoned by such a panic, which is not modelled here: every
later operation panics then, and a guard that is dropped releases nothing, as if it were still
there.  So less happens with that lock than in the runs of this file.
-/

namespace Interlock.Hl

open Interlock.Core Interlock.Memory Interlock.RbTree

variable {Priority InProgress : Type} [LinearOrder Priority]

/-! ## The operations -/

/-- A lock guard: the lock state that it borrows, and the elements to which `ptr` points. -/
structure Guard where
  lockState : LockPtr
  ptr : Range ℕ

inductive TryLockError where
  | wouldBlock

section Operations
variable (debug : Bool) (core : Addr) (len : ℕ)

/-- Get a slice pointer to subelements. -/
def slice (range : Range ℕ) : CoreM ℕ Priority InProgress (Range ℕ) := do
  if range.start ≤ range.stop ∧ range.stop ≤ len then return range
  else throw (.panic "out of bounds")

/-- What `try_read` and `try_write` have in common. -/
def tryWith (lockState : LockPtr) (tryLock : CoreM ℕ Priority InProgress Bool) (range : Range ℕ) :
    CoreM ℕ Priority InProgress (Except TryLockError Guard) := do
  let ptr ← slice len range
  if ← tryLock then return .ok ⟨lockState, ptr⟩
  else return .error .wouldBlock

def tryRead (range : Range ℕ) (state : Addr) :
    CoreM ℕ Priority InProgress (Except TryLockError Guard) :=
  tryWith len ⟨.tryRead, state⟩ (tryLockRead debug core range state) range

def tryWrite (range : Range ℕ) (state : Addr) :
    CoreM ℕ Priority InProgress (Except TryLockError Guard) :=
  tryWith len ⟨.tryWrite, state⟩ (tryLockWrite debug core range state) range

/-- What `read` and `write` have in common, up to the loop in which the thread waits.  If the lock
is not complete, the guard is returned behind the loop. -/
def startWith (lockState : LockPtr) (lock : CoreM ℕ Priority InProgress Bool) (range : Range ℕ) :
    CoreM ℕ Priority InProgress (Bool × Guard) := do
  let ptr ← slice len range
  let complete ← lock
  return (complete, ⟨lockState, ptr⟩)

def read (range : Range ℕ) (priority : Priority) (state : Addr) (inProgress : InProgress) :
    CoreM ℕ Priority InProgress (Bool × Guard) :=
  startWith len ⟨.read, state⟩
    (lockRead debug core range priority state ⟨(false, inProgress), true⟩) range

def write (range : Range ℕ) (priority : Priority) (state : Addr) (inProgress : InProgress) :
    CoreM ℕ Priority InProgress (Bool × Guard) :=
  startWith len ⟨.write, state⟩
    (lockWrite debug core range priority state ⟨(false, inProgress), true⟩) range

/-- What `async_read` and `async_write` have in common.  The guard is in the future from the
beginning. -/
def asyncWith (lockState : LockPtr) (startLock : CoreM ℕ Priority InProgress Bool)
    (range : Range ℕ) : CoreM ℕ Priority InProgress Guard := do
  let ptr ← slice len range
  let _ ← startLock
  return ⟨lockState, ptr⟩

def asyncRead (range : Range ℕ) (priority : Priority) (state : Addr) (inProgress : InProgress) :
    CoreM ℕ Priority InProgress Guard :=
  asyncWith len ⟨.read, state⟩
    (lockRead debug core range priority state ⟨(false, inProgress), true⟩) range

def asyncWrite (range : Range ℕ) (priority : Priority) (state : Addr) (inProgress : InProgress) :
    CoreM ℕ Priority InProgress Guard :=
  asyncWith len ⟨.write, state⟩
    (lockWrite debug core range priority state ⟨(false, inProgress), true⟩) range

end Operations

/-! ## Runs -/

/-- A call of an operation that locks. -/
inductive Attempt (Priority InProgress : Type) where
  | tryRead (range : Range ℕ) (state : Addr)
  | tryWrite (range : Range ℕ) (state : Addr)
  | read (range : Range ℕ) (priority : Priority) (state : Addr) (inProgress : InProgress)
  | write (range : Range ℕ) (priority : Priority) (state : Addr) (inProgress : InProgress)
  | asyncRead (range : Range ℕ) (priority : Priority) (state : Addr) (inProgress : InProgress)
  | asyncWrite (range : Range ℕ) (priority : Priority) (state : Addr) (inProgress : InProgress)

namespace Attempt

def range : Attempt Priority InProgress → Range ℕ
  | tryRead range _ | tryWrite range _ | read range .. | write range .. | asyncRead range ..
  | asyncWrite range .. => range

def isWrite : Attempt Priority InProgress → Bool
  | tryRead .. | read .. | asyncRead .. => false
  | tryWrite .. | write .. | asyncWrite .. => true

def lockState : Attempt Priority InProgress → LockPtr
  | tryRead _ state => ⟨.tryRead, state⟩
  | tryWrite _ state => ⟨.tryWrite, state⟩
  | read _ _ state _ | asyncRead _ _ state _ => ⟨.read, state⟩
  | write _ _ state _ | asyncWrite _ _ state _ => ⟨.write, state⟩

end Attempt

/-- What borrows a lock state. -/
inductive Borrower where
  /-- `read` or `write`, which waits, and then returns a guard. -/
  | call
  /-- A future that has not been polled to its end.  The guard is inside. -/
  | future
  | guard
  deriving DecidableEq

structure Borrow where
  borrower : Borrower
  ptr : Range ℕ
  deriving DecidableEq

/-- What has become of an attempt. -/
inductive Outcome where
  | borrowed (lockState : LockPtr) (borrow : Borrow)
  | wouldBlock

namespace Outcome

def ofTry : Except TryLockError Guard → Outcome
  | .ok guard => borrowed guard.lockState ⟨.guard, guard.ptr⟩
  | .error .wouldBlock => wouldBlock

def ofStart (result : Bool × Guard) : Outcome :=
  borrowed result.2.lockState ⟨if result.1 then .guard else .call, result.2.ptr⟩

def ofAsync (guard : Guard) : Outcome := borrowed guard.lockState ⟨.future, guard.ptr⟩

end Outcome

def Attempt.perform (debug : Bool) (core : Addr) (len : ℕ) :
    Attempt Priority InProgress → CoreM ℕ Priority InProgress Outcome
  | .tryRead range state => Outcome.ofTry <$> Hl.tryRead debug core len range state
  | .tryWrite range state => Outcome.ofTry <$> Hl.tryWrite debug core len range state
  | .read range priority state inProgress =>
      Outcome.ofStart <$> Hl.read debug core len range priority state inProgress
  | .write range priority state inProgress =>
      Outcome.ofStart <$> Hl.write debug core len range priority state inProgress
  | .asyncRead range priority state inProgress =>
      Outcome.ofAsync <$> Hl.asyncRead debug core len range priority state inProgress
  | .asyncWrite range priority state inProgress =>
      Outcome.ofAsync <$> Hl.asyncWrite debug core len range priority state inProgress

/-- The core, and who borrows the lock states. -/
structure State (Priority InProgress : Type) where
  store : Store ℕ Priority InProgress
  borrows : LockPtr → Option Borrow

namespace State
variable (debug : Bool) (core : Addr) (len : ℕ)

def init : State Priority InProgress := ⟨.init, fun _ => none⟩

def after (s : State Priority InProgress) (outcome : Outcome)
    (store : Store ℕ Priority InProgress) : State Priority InProgress :=
  match outcome with
  | .borrowed lockState borrow => ⟨store, Function.update s.borrows lockState (some borrow)⟩
  | .wouldBlock => { s with store }

/-- An attempt returns, begins to wait, or panics.  After a panic the run goes on. -/
def attempt (s : State Priority InProgress) (attempt : Attempt Priority InProgress) :
    Option (State Priority InProgress) :=
  match attempt.perform debug core len ⟨s.store, []⟩ with
  | .ok outcome w => some (s.after outcome w.store)
  | .error (.panic _) w => some { s with store := w.store }
  | .error _ _ => none

/-- A call that has waited returns its guard. -/
def wake (s : State Priority InProgress) (p : LockPtr) : Option (State Priority InProgress) :=
  match s.borrows p with
  | some ⟨.call, ptr⟩ =>
      if (s.store.pending.get p).isSome then none
      else some { s with borrows := Function.update s.borrows p (some ⟨.guard, ptr⟩) }
  | _ => none

/-- A future is polled.  While the lock is in progress, it is given a waker. -/
def poll (s : State Priority InProgress) (isWrite : Bool) (state : Addr)
    (setWaker : InProgress → InProgress) : Option (State Priority InProgress) :=
  match s.borrows (lockPtr isWrite state) with
  | some ⟨.future, ptr⟩ =>
      match Call.perform debug (.inspect isWrite core state setWaker) ⟨s.store, []⟩ with
      | .ok (.inspected .complete) w =>
          some ⟨w.store, Function.update s.borrows (lockPtr isWrite state) (some ⟨.guard, ptr⟩)⟩
      | .ok _ w => some { s with store := w.store }
      | .error _ _ => none
  | _ => none

/-- A guard is dropped, or a future with the guard inside. -/
def drop (s : State Priority InProgress) (p : LockPtr) : Option (State Priority InProgress) :=
  match s.borrows p with
  | some ⟨.guard, _⟩ | some ⟨.future, _⟩ =>
      match Call.perform debug (.unlock core p) ⟨s.store, []⟩ with
      | .ok _ w => some ⟨w.store, Function.update s.borrows p none⟩
      | .error _ _ => none
  | _ => none

end State

inductive Step (debug : Bool) (core : Addr) (len : ℕ) (accepts : Attempt Priority InProgress → Prop)
    (s s' : State Priority InProgress) : Prop where
  | attempt (a : Attempt Priority InProgress) (haccepted : accepts a)
      (h : s.attempt debug core len a = some s')
  | wake (p : LockPtr) (h : s.wake p = some s')
  | poll (isWrite : Bool) (state : Addr) (setWaker : InProgress → InProgress)
      (h : s.poll debug core isWrite state setWaker = some s')
  | drop (p : LockPtr) (h : s.drop debug core p = some s')

/-- The states that can be reached with attempts that `accepts` allows. -/
inductive Run (debug : Bool) (core : Addr) (len : ℕ)
    (accepts : Attempt Priority InProgress → Prop) : State Priority InProgress → Prop where
  | init : Run debug core len accepts .init
  | step {s s'} (run : Run debug core len accepts s) (step : Step debug core len accepts s s') :
      Run debug core len accepts s'

/-! ## Tables -/

section Tables
variable {debug : Bool} {strict : Prop} {core : Addr} {len : ℕ} {range : Range ℕ}
  {store : Store ℕ Priority InProgress} {tables tables' : Tables ℕ Priority InProgress}
  {p : LockPtr} {ptr : Range ℕ} {borrow : Borrow} {a : Attempt Priority InProgress}
  {s s' : State Priority InProgress}

/-- From `tables` to `tables'` the core locks `range` for `p`. -/
structure Locks (tables tables' : Tables ℕ Priority InProgress) (core : Addr) (p : LockPtr)
    (range : Range ℕ) (complete : Bool) : Prop where
  fresh : (tables core).requestOf p = none
  request : (tables' core).requestOf p = some range
  others : ∀ q, q ≠ p → (tables' core).requestOf q = (tables core).requestOf q
  settled : complete = true → p ∉ (tables' core).queue.map Prod.fst
  waiters : ∀ q, q ≠ p → q ∈ (tables' core).queue.map Prod.fst →
    q ∈ (tables core).queue.map Prod.fst

def Outcome.Of (tables tables' : Tables ℕ Priority InProgress) (core : Addr) (p : LockPtr) :
    Outcome → Prop
  | borrowed lockState borrow => lockState = p ∧
      Locks tables tables' core lockState borrow.ptr (borrow.borrower == .guard)
  | wouldBlock => tables' = tables

omit [LinearOrder Priority] in
theorem Locks.pending {complete : Bool} (h : Locks tables tables' core p range complete) :
    Locks tables tables' core p range false :=
  ⟨h.fresh, h.request, h.others, nofun, h.waiters⟩

omit [LinearOrder Priority] in
theorem requestOf_of_not_inUse (hp : ¬ InUse tables p) : (tables core).requestOf p = none := by
  rw [Table.requestOf, locks_eq_none_of_not_inUse hp core, Option.map_none]

theorem locks_lock (hquiet : (tables core).Quiet strict) (hp : ¬ InUse tables p)
    (priority : Priority) (inProgress : InProgress) :
    Locks tables (Function.update tables core ((tables core).lock p range priority inProgress)) core
      p range ((tables core).firstConflict p range).isNone := by
  refine ⟨requestOf_of_not_inUse hp, ?_, fun q hq => ?_, fun hcomplete => ?_, fun q hq hqueue => ?_⟩
  · rw [Function.update_self, Table.lock_requestOf_self]
  · rw [Function.update_self, Table.requestOf, Table.lock_locks_of_ne hq]
    rfl
  · rw [Function.update_self, Table.lock, Option.isNone_iff_eq_none.mp hcomplete]
    exact hquiet.not_queued (locks_eq_none_of_not_inUse hp core)
  · rw [Function.update_self] at hqueue
    obtain ⟨⟨_, w⟩, hw, rfl⟩ := List.mem_map.mp hqueue
    exact List.mem_map_of_mem ((Table.mem_lock_queue hq).mp hw)

theorem locks_tryLock (hquiet : (tables core).Quiet strict) (hp : ¬ InUse tables p)
    (hnone : (tables core).firstConflict p range = none) :
    Locks tables (Function.update tables core ((tables core).tryLock p range))
      core p range true := by
  have hqueue : ((tables core).tryLock p range).queue = (tables core).queue := by
    rw [Table.tryLock, hnone]
    rfl
  refine ⟨requestOf_of_not_inUse hp, ?_, fun q hq => ?_, fun _ => ?_, fun q _ hq => ?_⟩
  · rw [Function.update_self, Table.tryLock_requestOf_self hnone]
  · rw [Function.update_self, Table.requestOf, Table.tryLock_locks_of_ne hq]
    rfl
  · rw [Function.update_self, hqueue]
    exact hquiet.not_queued (locks_eq_none_of_not_inUse hp core)
  · rwa [Function.update_self, hqueue] at hq

omit [LinearOrder Priority] in
theorem slice_cases (len : ℕ) (range : Range ℕ) (world : World ℕ Priority InProgress) :
    Panics (slice len range) world "out of bounds" (· = world) ∨
      (range.start ≤ range.stop ∧
        Runs (slice len range) world fun ptr w => ptr = range ∧ w = world) := by
  unfold slice
  by_cases hrange : range.start ≤ range.stop ∧ range.stop ≤ len
  · right
    rw [if_pos hrange]
    exact ⟨hrange.1, runs_pure.mpr ⟨rfl, rfl⟩⟩
  · left
    rw [if_neg hrange]
    exact panics_throw.mpr rfl

/-- A program that panics and leaves the store as it is, or returns with `post`. -/
def Ends {α : Type} (m : CoreM ℕ Priority InProgress α) (store : Store ℕ Priority InProgress)
    (post : α → Store ℕ Priority InProgress → Prop) : Prop :=
  (∃ message, Panics m ⟨store, []⟩ message fun w => w.store = store) ∨
    Runs m ⟨store, []⟩ fun a w => post a w.store

omit [LinearOrder Priority] in
theorem Ends.map {α β : Type} {m : CoreM ℕ Priority InProgress α} {f : α → β}
    {post : β → Store ℕ Priority InProgress → Prop} :
    Ends (f <$> m) store post ↔ Ends m store fun a store' => post (f a) store' := by
  simp only [Ends, panics_map, runs_map]

omit [LinearOrder Priority] in
/-- The check of the range comes first. -/
theorem ends_slice {α : Type} {m : Range ℕ → CoreM ℕ Priority InProgress α}
    {post : α → Store ℕ Priority InProgress → Prop}
    (h : range.start ≤ range.stop → Ends (m range) store post) :
    Ends (slice len range >>= m) store post := by
  rcases slice_cases len range (⟨store, []⟩ : World ℕ Priority InProgress) with
    hpanics | ⟨hle, hruns⟩
  · refine Or.inl ⟨_, (hpanics.bind).mono ?_⟩
    rintro _ rfl
    rfl
  · rcases h hle with ⟨message, hpanics⟩ | hrest
    · refine Or.inl ⟨message, hruns.panics ?_⟩
      rintro _ _ ⟨rfl, rfl⟩
      exact hpanics
    · refine Or.inr (hruns.bind ?_)
      rintro _ _ ⟨rfl, rfl⟩
      exact hrest

section Core
variable (h : Models tables store) (hgood : Good strict tables) (hdebug : debug = true → strict)
include h hgood hdebug

theorem ends_tryLock (isWrite : Bool) (core state : Addr)
    (hrange : Table.Admissible strict (tryLockPtr isWrite state) range) :
    Ends (Call.perform debug (.tryLock isWrite core state range)) store fun reply store' =>
      ∃ tables', Models tables' store' ∧ Good strict tables' ∧
        ((reply = .locked true ∧ Locks tables tables' core (tryLockPtr isWrite state) range true) ∨
          (reply = .locked false ∧ tables' = tables)) := by
  set σ : System ℕ Priority InProgress := ⟨tables, []⟩ with hσ
  have hsimulates : Simulates ⟨store, []⟩ σ := ⟨h, List.Forall₂.nil⟩
  by_cases hmisused : System.Misused σ.tables (.tryLock isWrite core state range)
  · refine Or.inl ⟨_, (Call.panics (fun _ _ => id) False hsimulates hgood hdebug
      (.tryLock isWrite core state range) hrange hmisused).mono fun w hw => hw.1⟩
  · have hfresh : (tables core).firstConflict (tryLockPtr isWrite state) range = none →
        ¬ InUse tables (tryLockPtr isWrite state) := not_and.mp hmisused
    refine Or.inr
      ((tryLock_returns hsimulates hgood hdebug isWrite core state hrange hfresh).mono ?_)
    rintro _ w ⟨hw, rfl, hself⟩
    cases hfirst : (tables core).firstConflict (tryLockPtr isWrite state) range with
    | some i =>
        obtain rfl := hself (by rw [hfirst]; rfl)
        exact ⟨tables, h, hgood, Or.inr ⟨rfl, rfl⟩⟩
    | none =>
        have hstep : System.Step False (Table.Admissible strict) σ _ :=
          .tryLock isWrite core state hrange hfresh
        have hgood' := hstep.good (fun _ _ => id) hgood
        exact ⟨_, hw.models, hgood',
          Or.inl ⟨rfl, locks_tryLock (hgood.quiet core) (hfresh hfirst) hfirst⟩⟩

theorem ends_lock (isWrite : Bool) (core state : Addr)
    (hrange : Table.Admissible strict (lockPtr isWrite state) range) (priority : Priority)
    (inProgress : InProgress) :
    Ends (Call.perform debug (.lock isWrite core state range priority inProgress)) store
      fun reply store' => ∃ tables' complete, Models tables' store' ∧ Good strict tables' ∧
        reply = .locked complete ∧ Locks tables tables' core (lockPtr isWrite state)
          range complete := by
  set σ : System ℕ Priority InProgress := ⟨tables, []⟩ with hσ
  have hsimulates : Simulates ⟨store, []⟩ σ := ⟨h, List.Forall₂.nil⟩
  by_cases hused : InUse tables (lockPtr isWrite state)
  · refine Or.inl ⟨_, (Call.panics (fun _ _ => id) False hsimulates hgood hdebug
      (.lock isWrite core state range priority inProgress) hrange hused).mono fun w hw => hw.1⟩
  · refine Or.inr ((lock_returns hsimulates hgood hdebug isWrite core state hrange hused priority
      inProgress).mono ?_)
    rintro _ w ⟨hw, rfl, -⟩
    have hstep : System.Step False (Table.Admissible strict) σ _ :=
      .lock isWrite core state priority inProgress hrange hused
    have hgood' := hstep.good (fun _ _ => id) hgood
    exact ⟨_, _, hw.models, hgood', rfl,
      locks_lock (hgood.quiet core) hused priority inProgress⟩

theorem ends_tryWith {isWrite : Bool} {state : Addr} {tryLock : CoreM ℕ Priority InProgress Bool}
    (hcall : Call.perform debug (.tryLock isWrite core state range) = Reply.locked <$> tryLock)
    (haccepted : strict ∨ isWrite = true → range.start < range.stop) :
    Ends (Outcome.ofTry <$> tryWith len (tryLockPtr isWrite state) tryLock range) store
      fun outcome store' => ∃ tables', Models tables' store' ∧ Good strict tables' ∧
        outcome.Of tables tables' core (tryLockPtr isWrite state) := by
  refine Ends.map.mpr (ends_slice fun hle => ?_)
  have hadmissible : Table.Admissible strict (tryLockPtr isWrite state) range := by
    refine ⟨hle, fun hstrict => haccepted ?_⟩
    rwa [tryLockPtr_isWrite] at hstrict
  have hends := ends_tryLock h hgood hdebug isWrite core state hadmissible
  rw [hcall, Ends.map] at hends
  rcases hends with ⟨message, hpanics⟩ | hruns
  · exact Or.inl ⟨message, hpanics.bind⟩
  · refine Or.inr (hruns.bind ?_)
    rintro success w ⟨tables', hmodels, hgood', ⟨hreply, hlocks⟩ | ⟨hreply, rfl⟩⟩
    · cases hreply
      exact runs_pure.mpr ⟨tables', hmodels, hgood', rfl, hlocks⟩
    · cases hreply
      exact runs_pure.mpr ⟨tables', hmodels, hgood', rfl⟩

theorem ends_startWith {isWrite : Bool} {state : Addr} {priority : Priority}
    {inProgress : InProgress} {lock : CoreM ℕ Priority InProgress Bool}
    (hcall : Call.perform debug (.lock isWrite core state range priority inProgress) =
      Reply.locked <$> lock)
    (haccepted : strict ∨ isWrite = true → range.start < range.stop) :
    Ends (Outcome.ofStart <$> startWith len (lockPtr isWrite state) lock range) store
      fun outcome store' => ∃ tables', Models tables' store' ∧ Good strict tables' ∧
        outcome.Of tables tables' core (lockPtr isWrite state) := by
  refine Ends.map.mpr (ends_slice fun hle => ?_)
  have hadmissible : Table.Admissible strict (lockPtr isWrite state) range := by
    refine ⟨hle, fun hstrict => haccepted ?_⟩
    rwa [lockPtr_isWrite] at hstrict
  have hends := ends_lock h hgood hdebug isWrite core state hadmissible priority inProgress
  rw [hcall, Ends.map] at hends
  rcases hends with ⟨message, hpanics⟩ | hruns
  · exact Or.inl ⟨message, hpanics.bind⟩
  · refine Or.inr (hruns.bind ?_)
    rintro complete w ⟨tables', _, hmodels, hgood', hreply, hlocks⟩
    cases hreply
    refine runs_pure.mpr ⟨tables', hmodels, hgood', ?_⟩
    cases complete with
    | true => exact ⟨rfl, hlocks⟩
    | false => exact ⟨rfl, hlocks⟩

theorem ends_asyncWith {isWrite : Bool} {state : Addr} {priority : Priority}
    {inProgress : InProgress} {lock : CoreM ℕ Priority InProgress Bool}
    (hcall : Call.perform debug (.lock isWrite core state range priority inProgress) =
      Reply.locked <$> lock)
    (haccepted : strict ∨ isWrite = true → range.start < range.stop) :
    Ends (Outcome.ofAsync <$> asyncWith len (lockPtr isWrite state) lock range) store
      fun outcome store' => ∃ tables', Models tables' store' ∧ Good strict tables' ∧
        outcome.Of tables tables' core (lockPtr isWrite state) := by
  refine Ends.map.mpr (ends_slice fun hle => ?_)
  have hadmissible : Table.Admissible strict (lockPtr isWrite state) range := by
    refine ⟨hle, fun hstrict => haccepted ?_⟩
    rwa [lockPtr_isWrite] at hstrict
  have hends := ends_lock h hgood hdebug isWrite core state hadmissible priority inProgress
  rw [hcall, Ends.map] at hends
  rcases hends with ⟨message, hpanics⟩ | hruns
  · exact Or.inl ⟨message, hpanics.bind⟩
  · refine Or.inr (hruns.bind ?_)
    rintro _ w ⟨tables', _, hmodels, hgood', -, hlocks⟩
    exact runs_pure.mpr ⟨tables', hmodels, hgood', rfl, hlocks.pending⟩

/-- What an attempt does. -/
theorem Attempt.ends (core : Addr) (len : ℕ)
    (haccepted : strict ∨ a.isWrite = true → a.range.start < a.range.stop) :
    Ends (a.perform debug core len) store fun outcome store' =>
      ∃ tables', Models tables' store' ∧ Good strict tables' ∧
        outcome.Of tables tables' core a.lockState := by
  have htryLock : ∀ isWrite state range,
      (Call.perform debug (.tryLock isWrite core state range) : CoreM ℕ Priority InProgress _) =
        Reply.locked <$> (if isWrite then tryLockWrite debug core range state
          else tryLockRead debug core range state) := fun _ _ _ => (map_eq_pure_bind _ _).symm
  have hlock : ∀ isWrite state range priority inProgress,
      (Call.perform debug (.lock isWrite core state range priority inProgress) :
        CoreM ℕ Priority InProgress _) = Reply.locked <$>
          (if isWrite then lockWrite debug core range priority state ⟨(false, inProgress), true⟩
          else lockRead debug core range priority state ⟨(false, inProgress), true⟩) :=
    fun _ _ _ _ _ => (map_eq_pure_bind _ _).symm
  cases a with
  | tryRead range state =>
      exact ends_tryWith h hgood hdebug (htryLock false state range) haccepted
  | tryWrite range state =>
      exact ends_tryWith h hgood hdebug (htryLock true state range) haccepted
  | read range priority state inProgress =>
      exact ends_startWith h hgood hdebug (hlock false state range priority inProgress) haccepted
  | write range priority state inProgress =>
      exact ends_startWith h hgood hdebug (hlock true state range priority inProgress) haccepted
  | asyncRead range priority state inProgress =>
      exact ends_asyncWith h hgood hdebug (hlock false state range priority inProgress) haccepted
  | asyncWrite range priority state inProgress =>
      exact ends_asyncWith h hgood hdebug (hlock true state range priority inProgress) haccepted

end Core

/-! ## The invariant -/

/-- The locks of the core are those whose lock states are borrowed. -/
structure State.Tracked (core : Addr) (s : State Priority InProgress)
    (tables : Tables ℕ Priority InProgress) : Prop where
  request : ∀ p, (tables core).requestOf p = (s.borrows p).map (·.ptr)
  settled : ∀ p ptr, s.borrows p = some ⟨.guard, ptr⟩ → p ∉ (tables core).queue.map Prod.fst

/-- There are tables behind the store, and they know the borrowed lock states. -/
def State.Valid (strict : Prop) (core : Addr) (s : State Priority InProgress) : Prop :=
  ∃ tables, Models tables s.store ∧ Good strict tables ∧ s.Tracked core tables

theorem State.Valid.init : (State.init : State Priority InProgress).Valid strict core := by
  have hgood : Good strict (System.init : System ℕ Priority InProgress).tables :=
    System.Run.good (fun _ _ => id) (.init : System.Run False (Table.Admissible strict) _)
  exact ⟨_, ModelsWith.init, hgood, fun _ => rfl, nofun⟩

omit [LinearOrder Priority] in
theorem State.Tracked.borrowed (h : s.Tracked core tables)
    (hlocks : Locks tables tables' core p borrow.ptr (borrow.borrower == .guard)) :
    (s.after (.borrowed p borrow) store).Tracked core tables' := by
  refine ⟨fun q => ?_, fun q ptr hq => ?_⟩
  · show _ = (Function.update s.borrows p (some borrow) q).map (·.ptr)
    by_cases hqp : q = p
    · rw [hqp, Function.update_self, hlocks.request]
      rfl
    · rw [Function.update_of_ne hqp, hlocks.others q hqp, h.request]
  · have hq : Function.update s.borrows p (some borrow) q = some ⟨.guard, ptr⟩ := hq
    by_cases hqp : q = p
    · rw [hqp, Function.update_self] at hq
      obtain rfl := Option.some.inj hq
      exact hqp ▸ hlocks.settled rfl
    · rw [Function.update_of_ne hqp] at hq
      exact fun hmem => h.settled q ptr hq (hlocks.waiters q hqp hmem)

omit [LinearOrder Priority] in
/-- What waits for a lock that is complete may return the guard. -/
theorem State.Tracked.guarded {borrower : Borrower} (h : s.Tracked core tables)
    (hp : s.borrows p = some ⟨borrower, ptr⟩) (hsettled : p ∉ (tables core).queue.map Prod.fst) :
    (State.mk store (Function.update s.borrows p (some ⟨.guard, ptr⟩))).Tracked core tables := by
  refine ⟨fun q => ?_, fun q ptr' hq => ?_⟩
  · show _ = (Function.update s.borrows p (some ⟨.guard, ptr⟩) q).map (·.ptr)
    by_cases hqp : q = p
    · rw [hqp, Function.update_self, h.request, hp]
      rfl
    · rw [Function.update_of_ne hqp, h.request]
  · have hq : Function.update s.borrows p (some ⟨.guard, ptr⟩) q = some ⟨.guard, ptr'⟩ := hq
    by_cases hqp : q = p
    · exact hqp ▸ hsettled
    · rw [Function.update_of_ne hqp] at hq
      exact h.settled q ptr' hq

theorem State.Valid.wake (h : s.Valid strict core) (hs' : s.wake p = some s') :
    s'.Valid strict core := by
  obtain ⟨tables, hmodels, hgood, htracked⟩ := h
  unfold State.wake at hs'
  split at hs'
  · next ptr hp =>
      split at hs'
      · cases hs'
      · next hpending =>
          obtain rfl := Option.some.inj hs'
          refine ⟨tables, hmodels, hgood, htracked.guarded hp ?_⟩
          intro hqueue
          obtain ⟨x, hx, rfl⟩ := List.mem_map.mp hqueue
          obtain ⟨node, hnode, -⟩ := hmodels.pending_eq_some hx
          rw [hnode] at hpending
          exact hpending rfl
  · cases hs'

omit [LinearOrder Priority] in
/-- A write through the reference to `InProgress`. -/
theorem State.Tracked.write (h : s.Tracked core tables) (q : LockPtr)
    (f : InProgress → InProgress) :
    (State.mk store s.borrows).Tracked core
      (Function.update tables core ((tables core).write q f)) := by
  have hqueue : ((tables core).write q f).queue.map Prod.fst =
      (tables core).queue.map Prod.fst := by
    simp [Table.write]
  refine ⟨fun p => ?_, fun p ptr hp => ?_⟩
  · rw [Function.update_self, Table.requestOf, Table.write_locks]
    exact h.request p
  · rw [Function.update_self, hqueue]
    exact h.settled p ptr hp

theorem State.Valid.poll {isWrite : Bool} {state : Addr} {setWaker : InProgress → InProgress}
    (h : s.Valid strict core) (hs' : s.poll debug core isWrite state setWaker = some s') :
    s'.Valid strict core := by
  obtain ⟨tables, hmodels, hgood, htracked⟩ := h
  unfold State.poll at hs'
  split at hs'
  · next ptr hp =>
      have hrequest := htracked.request (lockPtr isWrite state)
      rw [hp] at hrequest
      obtain ⟨l, hl, -⟩ := Option.map_eq_some_iff.mp hrequest
      set σ : System ℕ Priority InProgress := ⟨tables, []⟩ with hσ
      have hsimulates : Simulates ⟨s.store, []⟩ σ := ⟨hmodels, List.Forall₂.nil⟩
      have hstep : System.Step False (Table.Admissible strict) σ _ :=
        .inspect isWrite core state setWaker hl
      have hgood' := hstep.good (fun _ _ => id) hgood
      have hreturns : Runs (Call.perform debug (.inspect isWrite core state setWaker)) _ _ :=
        inspect_returns hsimulates hgood.coherent isWrite core state setWaker hl
      obtain ⟨reply, w, hrun, hw, hreply⟩ := hreturns
      have htracked' : (State.mk w.store s.borrows).Tracked core
          (σ.write core (lockPtr isWrite state) setWaker).tables := htracked.write _ _
      rw [hrun, hreply] at hs'
      by_cases hqueue : lockPtr isWrite state ∈ (tables core).queue.map Prod.fst
      · obtain ⟨x, hx, hxp⟩ := List.mem_map.mp hqueue
        have hwaiting : (σ.tables core).waiting (lockPtr isWrite state) = some x.2.inProgress :=
          hxp ▸ (hgood.quiet core).waiting_eq_some hx
        rw [hwaiting] at hs'
        obtain rfl := Option.some.inj hs'
        exact ⟨_, hw.models, hgood', htracked'⟩
      · have hwaiting : (σ.tables core).waiting (lockPtr isWrite state) = none :=
          Table.waiting_eq_none hqueue
        rw [hwaiting] at hs'
        obtain rfl := Option.some.inj hs'
        refine ⟨_, hw.models, hgood', htracked'.guarded hp ?_⟩
        have hself : (tables core).write (lockPtr isWrite state) setWaker = tables core :=
          Table.write_self hqueue
        have hsame : (σ.write core (lockPtr isWrite state) setWaker).tables core = tables core := by
          rw [System.write, System.put_tables, Function.update_self, hself]
        rwa [hsame]
  · cases hs'

section Steps
variable (hdebug : debug = true → strict)
include hdebug

theorem State.Valid.drop (h : s.Valid strict core) (hs' : s.drop debug core p = some s') :
    s'.Valid strict core := by
  obtain ⟨tables, hmodels, hgood, htracked⟩ := h
  -- The same happens to a guard and to a future
  have hunlock : ∀ borrow, s.borrows p = some borrow → ∃ reply w,
      Call.perform debug (.unlock core p) ⟨s.store, []⟩ = .ok reply w ∧
        (State.mk w.store (Function.update s.borrows p none)).Valid strict core := by
    intro borrow hp
    have hrequest := htracked.request p
    rw [hp] at hrequest
    obtain ⟨l, hl, -⟩ := Option.map_eq_some_iff.mp hrequest
    set σ : System ℕ Priority InProgress := ⟨tables, []⟩ with hσ
    have hsimulates : Simulates ⟨s.store, []⟩ σ := ⟨hmodels, List.Forall₂.nil⟩
    have hstep : System.Step False (Table.Admissible strict) σ _ := .unlock core p hl
    have hgood' := hstep.good (fun _ _ => id) hgood
    have htables : (σ.unlock core p).tables =
        Function.update tables core ((tables core).unlock p) := System.unlock_tables σ
    obtain ⟨reply, w, hrun, hw, -⟩ := unlock_returns hsimulates hgood hdebug core p hl
    refine ⟨reply, w, hrun, _, hw.models, hgood', fun q => ?_, fun q ptr hq => ?_⟩
    · rw [htables, Function.update_self]
      show _ = (Function.update s.borrows p none q).map (·.ptr)
      by_cases hqp : q = p
      · rw [hqp, Function.update_self, Table.requestOf, Table.unlock_locks_self]
        rfl
      · rw [Function.update_of_ne hqp, Table.unlock_requestOf hqp]
        exact htracked.request q
    · have hq : Function.update s.borrows p none q = some ⟨.guard, ptr⟩ := hq
      have hqp : q ≠ p := by
        rintro rfl
        rw [Function.update_self] at hq
        cases hq
      rw [Function.update_of_ne hqp] at hq
      intro hmem
      rw [htables, Function.update_self] at hmem
      exact htracked.settled q ptr hq (Table.mem_unlock_queue hmem)
  unfold State.drop at hs'
  split at hs'
  · next ptr hp =>
      obtain ⟨reply, w, hrun, hvalid⟩ := hunlock _ hp
      rw [hrun] at hs'
      obtain rfl := Option.some.inj hs'
      exact hvalid
  · next ptr hp =>
      obtain ⟨reply, w, hrun, hvalid⟩ := hunlock _ hp
      rw [hrun] at hs'
      obtain rfl := Option.some.inj hs'
      exact hvalid
  · cases hs'

theorem State.Valid.attempt (h : s.Valid strict core)
    (haccepted : strict ∨ a.isWrite = true → a.range.start < a.range.stop)
    (hs' : s.attempt debug core len a = some s') : s'.Valid strict core := by
  obtain ⟨tables, hmodels, hgood, htracked⟩ := h
  rw [State.attempt] at hs'
  have hends := Attempt.ends hmodels hgood hdebug core len haccepted
  rcases hends with
    ⟨message, w, hrun, hstore⟩ | ⟨outcome, w, hrun, tables', hmodels', hgood', hof⟩
  · rw [hrun] at hs'
    obtain rfl := Option.some.inj hs'
    exact ⟨tables, hstore ▸ hmodels, hgood, htracked.request, htracked.settled⟩
  · rw [hrun] at hs'
    obtain rfl := Option.some.inj hs'
    cases outcome with
    | borrowed lockState borrow => exact ⟨tables', hmodels', hgood', htracked.borrowed hof.2⟩
    | wouldBlock =>
        obtain rfl : tables' = tables := hof
        exact ⟨tables', hmodels', hgood', htracked.request, htracked.settled⟩

variable {accepts : Attempt Priority InProgress → Prop}
  (haccepts : ∀ a, accepts a → strict ∨ a.isWrite = true → a.range.start < a.range.stop)
include haccepts

theorem Step.valid (h : s.Valid strict core) (step : Step debug core len accepts s s') :
    s'.Valid strict core := by
  cases step with
  | attempt a haccepted hs' => exact h.attempt hdebug (haccepts a haccepted) hs'
  | wake p hs' => exact h.wake hs'
  | poll isWrite state setWaker hs' => exact h.poll hs'
  | drop p hs' => exact h.drop hdebug hs'

theorem Run.valid (run : Run debug core len accepts s) : s.Valid strict core := by
  induction run with
  | init => exact State.Valid.init
  | step _ step ih => exact step.valid hdebug haccepts ih

end Steps

end Tables

/-! ### Given attempts -/

section Attempts
variable {debug : Bool} {core : Addr} {len : ℕ} {accepts : Attempt Priority InProgress → Prop}
  {s s' : State Priority InProgress} {calls : List (Attempt Priority InProgress)}

/-- The state after some attempts in a row. -/
def State.attempts (debug : Bool) (core : Addr) (len : ℕ) (s : State Priority InProgress)
    (calls : List (Attempt Priority InProgress)) : Option (State Priority InProgress) :=
  calls.foldlM (State.attempt debug core len) s

theorem Run.attempts (run : Run debug core len accepts s) (haccepted : ∀ a ∈ calls, accepts a)
    (h : s.attempts debug core len calls = some s') : Run debug core len accepts s' := by
  induction calls generalizing s with
  | nil =>
      obtain rfl := Option.some.inj h
      exact run
  | cons a calls ih =>
      rw [State.attempts, List.foldlM_cons] at h
      obtain ⟨s₁, hs₁, h⟩ := Option.bind_eq_some_iff.mp h
      have hrun := run.step (.attempt a (haccepted a List.mem_cons_self) hs₁)
      exact ih hrun (fun b hb => haccepted b (List.mem_cons_of_mem _ hb)) h

end Attempts

/-! ## Exclusive access -/

section Exclusive
variable {core : Addr} {len : ℕ} {s : State Priority InProgress}

/-- The elements to which a slice pointer points. -/
def elements (ptr : Range ℕ) : Set ℕ := Set.Ico ptr.start ptr.stop

/-- The slice of a write guard shares no element with the slice of another guard. -/
def State.Exclusive (s : State Priority InProgress) : Prop :=
  ∀ p q ptr ptr', p ≠ q → p.kind.isWrite = true → s.borrows p = some ⟨.guard, ptr⟩ →
    s.borrows q = some ⟨.guard, ptr'⟩ → Disjoint (elements ptr) (elements ptr')

/-- The elements of a guard are those that its lock holds. -/
theorem State.Tracked.holds {strict : Prop} {tables : Tables ℕ Priority InProgress}
    (h : s.Tracked core tables) (hquiet : (tables core).Quiet strict) {p : LockPtr} {ptr : Range ℕ}
    (hp : s.borrows p = some ⟨.guard, ptr⟩) : ∃ l, (tables core).locks p = some l ∧
      ∀ i, i ∈ elements ptr ↔ l.Holds i := by
  have hrequest := h.request p
  rw [hp] at hrequest
  obtain ⟨l, hl, heq⟩ := Option.map_eq_some_iff.mp hrequest
  obtain rfl : l.request = ptr := heq
  refine ⟨l, hl, fun i => ?_⟩
  rw [Lock.Holds, Lock.pos, hquiet.settled p l hl (h.settled p _ hp)]
  exact Set.mem_Ico

/-- Write access is exclusive as long as nobody asks for write access to an empty range. -/
theorem Run.guards_exclusive
    (run : Run false core len (fun a => a.isWrite = true → a.range.start < a.range.stop) s) :
    s.Exclusive := by
  have haccepts : ∀ a : Attempt Priority InProgress,
      (a.isWrite = true → a.range.start < a.range.stop) →
      False ∨ a.isWrite = true → a.range.start < a.range.stop :=
    fun a ha hstrict => ha (hstrict.resolve_left id)
  obtain ⟨tables, -, hgood, htracked⟩ := run.valid (by simp) haccepts
  intro p q ptr ptr' hne hwrite hp hq
  have hquiet := hgood.quiet core
  obtain ⟨l, hl, hholds⟩ := htracked.holds hquiet hp
  obtain ⟨l', hl', hholds'⟩ := htracked.holds hquiet hq
  have hconf : conflicting p q = true := by rw [conflicting, hwrite, Bool.true_or]
  refine Set.disjoint_left.mpr fun i hi hi' => ?_
  exact hquiet.exclusive p l i hl ((hholds i).mp hi) q l' (Ne.symm hne) hl' hconf
    ((hholds' i).mp hi')

/-- With an empty range that is read, and a writer on either side of it. -/
theorem guards_exclusive_empty_read : ∃ s : State ℕ ℕ,
    State.attempts false (slot 0) 10 .init
      [.tryRead ⟨5, 5⟩ (slot 1), .tryWrite ⟨0, 5⟩ (slot 2), .tryWrite ⟨6, 10⟩ (slot 3)] = some s ∧
    s.Exclusive ∧ s.borrows (tryLockPtr true (slot 2)) = some ⟨.guard, ⟨0, 5⟩⟩ ∧
    s.borrows (tryLockPtr true (slot 3)) = some ⟨.guard, ⟨6, 10⟩⟩ := by
  set calls : List (Attempt ℕ ℕ) := [.tryRead ⟨5, 5⟩ (slot 1), .tryWrite ⟨0, 5⟩ (slot 2),
    .tryWrite ⟨6, 10⟩ (slot 3)] with hcalls
  have hguards : (State.attempts false (slot 0) 10 .init calls).map (fun s =>
      (s.borrows (tryLockPtr true (slot 2)), s.borrows (tryLockPtr true (slot 3)))) =
      some (some ⟨.guard, ⟨0, 5⟩⟩, some ⟨.guard, ⟨6, 10⟩⟩) := by decide +kernel
  obtain ⟨s, hs, heq⟩ := Option.map_eq_some_iff.mp hguards
  obtain ⟨hp, hq⟩ := Prod.mk.inj heq
  refine ⟨s, hs, Run.guards_exclusive (Run.init.attempts ?_ hs), hp, hq⟩
  simp [hcalls, Attempt.isWrite, Attempt.range]

/-- A writer holds `0..10`.  Once the tree of writers has two nodes for the empty range `0..0`, the
search for a conflict with `5..8` does not find it. -/
theorem guards_not_exclusive :
    ¬ ∀ s : State ℕ ℕ, Run false (slot 0) 10 (fun _ => True) s → s.Exclusive := by
  intro h
  set calls : List (Attempt ℕ ℕ) := [.tryWrite ⟨0, 10⟩ (slot 1), .tryWrite ⟨0, 0⟩ (slot 2),
    .tryWrite ⟨0, 0⟩ (slot 3), .tryWrite ⟨5, 8⟩ (slot 4)] with hcalls
  have hguards : (State.attempts false (slot 0) 10 .init calls).map (fun s =>
      (s.borrows (tryLockPtr true (slot 1)), s.borrows (tryLockPtr true (slot 4)))) =
      some (some ⟨.guard, ⟨0, 10⟩⟩, some ⟨.guard, ⟨5, 8⟩⟩) := by decide +kernel
  obtain ⟨s, hs, heq⟩ := Option.map_eq_some_iff.mp hguards
  obtain ⟨hfirst, hlast⟩ := Prod.mk.inj heq
  have hdisjoint := h s (Run.init.attempts (fun _ _ => trivial) hs) _ _ _ _ (by decide) rfl hfirst
    hlast
  have hmem : (5 : ℕ) ∈ elements ⟨0, 10⟩ := Set.mem_Ico.mpr (by decide)
  have hmem' : (5 : ℕ) ∈ elements ⟨5, 8⟩ := Set.mem_Ico.mpr (by decide)
  exact Set.disjoint_left.mp hdisjoint hmem hmem'

end Exclusive

/-! ## The last lock -/

section Last
variable {core : Addr} {len : ℕ} {s s' : State Priority InProgress} {p q : LockPtr}

/-- A lock that is the only one left is complete. -/
def State.LastComplete (core : Addr) (s : State Priority InProgress) : Prop :=
  ∀ p, s.borrows p ≠ none → (∀ q, q ≠ p → s.borrows q = none) → s.store.Complete core p

/-- When all other locks have been released, the remaining one is complete, as long as nobody asks
for an empty range. -/
theorem Run.last_complete
    (run : Run false core len (fun a => a.range.start < a.range.stop) s) : s.LastComplete core := by
  have haccepts : ∀ a : Attempt Priority InProgress, a.range.start < a.range.stop →
      True ∨ a.isWrite = true → a.range.start < a.range.stop := fun _ ha _ => ha
  obtain ⟨tables, hmodels, hgood, htracked⟩ := run.valid (by simp) haccepts
  have hlive : ∀ p, s.borrows p ≠ none ↔ ∃ l, (tables core).locks p = some l := by
    intro p
    rw [← Option.ne_none_iff_exists']
    refine not_congr ?_
    rw [← Option.map_eq_none_iff, ← htracked.request p, Table.requestOf, Option.map_eq_none_iff]
  intro p hp hlast
  have hquiet := hgood.quiet core
  refine (hmodels.complete_iff fun c => (hgood.quiet c).toSound).mpr ⟨(hlive p).mp hp, ?_⟩
  intro hqueue
  obtain ⟨x, hx, rfl⟩ := List.mem_map.mp hqueue
  obtain ⟨r, l, hne, hl, -⟩ := hquiet.blocked trivial x hx
  exact (hlive r).mpr ⟨l, hl⟩ (hlast r hne)

/-- A writer waits for a reader, and the reader goes away. -/
theorem last_complete_handover : ∃ s : State ℕ ℕ,
    (State.attempts false (slot 0) 10 .init
      [.tryRead ⟨5, 6⟩ (slot 1), .write ⟨0, 10⟩ 0 (slot 2) 0]).bind
        (State.drop false (slot 0) · (tryLockPtr false (slot 1))) = some s ∧
    s.LastComplete (slot 0) ∧ s.borrows (lockPtr true (slot 2)) = some ⟨.call, ⟨0, 10⟩⟩ := by
  set calls : List (Attempt ℕ ℕ) := [.tryRead ⟨5, 6⟩ (slot 1), .write ⟨0, 10⟩ 0 (slot 2) 0]
    with hcalls
  have hcall : ((State.attempts false (slot 0) 10 .init calls).bind
      (State.drop false (slot 0) · (tryLockPtr false (slot 1)))).map (fun s =>
        s.borrows (lockPtr true (slot 2))) = some (some ⟨.call, ⟨0, 10⟩⟩) := by decide +kernel
  obtain ⟨s, hs, hp⟩ := Option.map_eq_some_iff.mp hcall
  obtain ⟨s₁, hs₁, hdrop⟩ := Option.bind_eq_some_iff.mp hs
  have hrun : Run false (slot 0) 10 (fun a => a.range.start < a.range.stop) s₁ :=
    Run.init.attempts (by simp [hcalls, Attempt.range]) hs₁
  exact ⟨s, hs, Run.last_complete (hrun.step (.drop _ hdrop)), hp⟩

/-- An attempt borrows no lock state but its own. -/
theorem State.Valid.attempt_borrows {debug : Bool} {strict : Prop} {a : Attempt Priority InProgress}
    (h : s.Valid strict core) (hdebug : debug = true → strict)
    (haccepted : strict ∨ a.isWrite = true → a.range.start < a.range.stop)
    (hs' : s.attempt debug core len a = some s') (hq : q ≠ a.lockState) :
    s'.borrows q = s.borrows q := by
  obtain ⟨tables, hmodels, hgood, -⟩ := h
  rw [State.attempt] at hs'
  have hends := Attempt.ends hmodels hgood hdebug core len haccepted
  rcases hends with
    ⟨message, w, hrun, -⟩ | ⟨outcome, w, hrun, tables', -, -, hof⟩
  · rw [hrun] at hs'
    obtain rfl := Option.some.inj hs'
    rfl
  · rw [hrun] at hs'
    obtain rfl := Option.some.inj hs'
    cases outcome with
    | borrowed lockState borrow => exact Function.update_of_ne (hof.1 ▸ hq) _ _
    | wouldBlock => rfl

theorem State.drop_borrows {debug : Bool} (hs' : s.drop debug core p = some s') (hq : q ≠ p) :
    s'.borrows q = s.borrows q := by
  have hsome : ∀ (w : World ℕ Priority InProgress) (borrows : LockPtr → Option Borrow),
      borrows = Function.update s.borrows p none → (State.mk w.store borrows) = s' →
      s'.borrows q = s.borrows q := by
    rintro w _ rfl rfl
    exact Function.update_of_ne hq _ _
  unfold State.drop at hs'
  split at hs'
  · split at hs'
    · exact hsome _ _ rfl (Option.some.inj hs')
    · cases hs'
  · split at hs'
    · exact hsome _ _ rfl (Option.some.inj hs')
    · cases hs'
  · cases hs'

/-- A writer waits at 5, where a reader of the empty range `5..5` has its two nodes.  When the
reader goes away, nobody resumes the writer. -/
theorem last_not_complete :
    ¬ ∀ s : State ℕ ℕ, Run false (slot 0) 10 (fun _ => True) s → s.LastComplete (slot 0) := by
  intro h
  set reads : Attempt ℕ ℕ := .tryRead ⟨5, 5⟩ (slot 1) with hreads
  set writes : Attempt ℕ ℕ := .write ⟨0, 10⟩ 0 (slot 2) 0 with hwrites
  have hend : (((State.init.attempt false (slot 0) 10 reads).bind
      (State.attempt false (slot 0) 10 · writes)).bind
        (State.drop false (slot 0) · reads.lockState)).map (fun s =>
          (s.borrows reads.lockState, s.borrows writes.lockState,
            (s.store.pending.get writes.lockState).isSome)) =
      some (none, some ⟨.call, ⟨0, 10⟩⟩, true) := by decide +kernel
  obtain ⟨s₃, h₃, heq⟩ := Option.map_eq_some_iff.mp hend
  obtain ⟨s₂, h₂, hdrop⟩ := Option.bind_eq_some_iff.mp h₃
  obtain ⟨s₁, h₁, hwrite⟩ := Option.bind_eq_some_iff.mp h₂
  obtain ⟨hreader, hwriter, hpending⟩ : _ = none ∧ _ = some _ ∧ _ = true := by
    simpa only [Prod.mk.injEq] using heq
  have hrun₁ : Run false (slot 0) 10 (fun _ => True) s₁ := Run.init.step (.attempt reads trivial h₁)
  have hrun₃ := (hrun₁.step (.attempt writes trivial hwrite)).step (.drop _ hdrop)
  -- There is nobody but the writer
  have hvalid : (State.init : State ℕ ℕ).Valid False (slot 0) := State.Valid.init
  have hvalid₁ := hvalid.attempt (by simp) (by simp [hreads, Attempt.isWrite]) h₁
  have hothers : ∀ q, q ≠ writes.lockState → s₃.borrows q = none := by
    intro q hq
    by_cases hqr : q = reads.lockState
    · rw [hqr]
      exact hreader
    · rw [State.drop_borrows hdrop hqr,
        hvalid₁.attempt_borrows (by simp) (by simp [hwrites, Attempt.range]) hwrite hq,
        hvalid.attempt_borrows (by simp) (by simp [hreads, Attempt.isWrite]) h₁ hqr]
      rfl
  have hlive : s₃.borrows writes.lockState ≠ none := by
    rw [hwriter]
    exact Option.some_ne_none _
  have hcomplete := (h s₃ hrun₃ writes.lockState hlive hothers).2
  rw [Store.waiter, Option.map_eq_none_iff] at hcomplete
  rw [hcomplete] at hpending
  cases hpending

end Last

end Interlock.Hl
