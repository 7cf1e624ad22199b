import Interlock.Core.Client

/-!
# The blocking lock

`raw/sync.rs`: a core behind a mutex, on which a thread that has to wait parks itself.  The steps of
the threads are interleaved: a call of the core under the mutex is one step, except that the two
statements of `UnlockCallback::complete` are steps of their own, and so are the two of the loop of a
waiting thread.

Ranges are non-empty where debug assertions are off (`haccepted`).  With them on, any range may be
passed, and an empty one makes the call panic.
-/

namespace Interlock.Raw.Sync

open Interlock.Core Interlock.Memory Interlock.RbTree

/-! ## The state -/

/-- The address of the local variable `complete` of a lock call.  Each lock call has its own. -/
abbrev Flag := ℕ

/-- The structure that describes a pending borrow operation. -/
structure InProgress (Thread : Type) where
  complete : Flag
  waiter : Thread
  deriving DecidableEq

/-- `lock_read` or `lock_write`, once it has given the mutex back. -/
structure Frame where
  flag : Flag
  /-- The value of the local variable. -/
  complete : Bool
  lock : LockPtr
  /-- The thread is in `std::thread::park`; otherwise it is about to load `complete`. -/
  parking : Bool

/-- `unlock_*`, which holds the mutex. -/
structure Unlocking (Index Priority Thread : Type) where
  lock : LockPtr
  /-- What the core returns. -/
  result : Option (InProgress Thread)
  /-- The core after the call. -/
  store : Store Index Priority (InProgress Thread)
  /-- The calls of `UnlockCallback::complete` that are still to come. -/
  callbacks : List (LockPtr × InProgress Thread)
  /-- The call of `UnlockCallback::complete` that has stored to the flag, and has still to
  unpark. -/
  unparking : Option (LockPtr × InProgress Thread)
  /-- The locks that this call has completed. -/
  completed : List LockPtr

inductive Mutex (Index Priority Thread : Type) where
  | free
  | held (call : Unlocking Index Priority Thread)
  /-- There has been a panic under the mutex, and every later `lock().unwrap()` panics. -/
  | poisoned

structure State (Index Priority Thread : Type) where
  /-- The core when the mutex was free. -/
  store : Store Index Priority (InProgress Thread)
  mutex : Mutex Index Priority Thread
  /-- The number of lock calls so far. -/
  calls : ℕ
  /-- The lock calls that wait. -/
  frames : Thread → Option Frame
  /-- The token of `park` and `unpark`. -/
  token : Thread → Bool

variable {Index Priority Thread : Type}

def State.init : State Index Priority Thread := ⟨.init, .free, 0, fun _ => none, fun _ => false⟩

/-- A lock call borrows its lock state mutably until it returns. -/
def State.Borrowed (s : State Index Priority Thread) (p : LockPtr) : Prop :=
  ∃ t frame, s.frames t = some frame ∧ frame.lock = p

/-- What can be observed of a step. -/
inductive Label (Thread : Type) where
  | silent
  | panicked
  /-- `lock_read` or `lock_write` returns. -/
  | lockReturned (thread : Thread) (lock : LockPtr)
  /-- `unlock_*` returns, and this is what the core has returned to it. -/
  | unlocked (lock : LockPtr) (result : Option (InProgress Thread))
  /-- `complete.store(true)` in the callback for a lock. -/
  | stored (lock : LockPtr) (inProgress : InProgress Thread)
  /-- `waiter.unpark()` in the callback for a lock. -/
  | unparked (lock : LockPtr) (inProgress : InProgress Thread)

/-! ## The steps -/

/-- A store through the pointer to the local variable of a lock call. -/
def storeFlag (flag : Flag) (frames : Thread → Option Frame) (t : Thread) : Option Frame :=
  (frames t).map fun frame => if frame.flag = flag then { frame with complete := true } else frame

variable [LinearOrder Index] [LinearOrder Priority] [DecidableEq Thread]
  (debug : Bool) (core : Addr)

inductive Step (s : State Index Priority Thread) :
    Label Thread → State Index Priority Thread → Prop where
  /-- `lock_*`, if the lock completes instantly. -/
  | lockComplete (t : Thread) (isWrite : Bool) (range : Range Index) (priority : Priority)
      (state : Addr) {w : World Index Priority (InProgress Thread)} (hmutex : s.mutex = .free)
      (hframe : s.frames t = none) (hborrow : ¬ s.Borrowed (lockPtr isWrite state))
      (haccepted : debug = false → range.start < range.stop)
      (h : Call.perform debug (.lock isWrite core state range priority ⟨s.calls, t⟩) ⟨s.store, []⟩ =
        .ok (.locked true) w) :
      Step s (.lockReturned t (lockPtr isWrite state))
        { s with store := w.store, calls := s.calls + 1 }
  /-- `lock_*`, if the thread has to wait. -/
  | lockWait (t : Thread) (isWrite : Bool) (range : Range Index) (priority : Priority)
      (state : Addr) {w : World Index Priority (InProgress Thread)} (hmutex : s.mutex = .free)
      (hframe : s.frames t = none) (hborrow : ¬ s.Borrowed (lockPtr isWrite state))
      (haccepted : debug = false → range.start < range.stop)
      (h : Call.perform debug (.lock isWrite core state range priority ⟨s.calls, t⟩) ⟨s.store, []⟩ =
        .ok (.locked false) w) :
      Step s .silent
        { s with
          store := w.store
          calls := s.calls + 1
          frames := Function.update s.frames t
            (some ⟨s.calls, false, lockPtr isWrite state, false⟩) }
  /-- `while !complete.load(Ordering::Relaxed)`, if the flag is set. -/
  | loadTrue (t : Thread) {frame : Frame} (hframe : s.frames t = some frame)
      (hparking : frame.parking = false) (hcomplete : frame.complete = true) :
      Step s (.lockReturned t frame.lock) { s with frames := Function.update s.frames t none }
  | loadFalse (t : Thread) {frame : Frame} (hframe : s.frames t = some frame)
      (hparking : frame.parking = false) (hcomplete : frame.complete = false) :
      Step s .silent
        { s with frames := Function.update s.frames t (some { frame with parking := true }) }
  /-- `std::thread::park()` consumes the token. -/
  | park (t : Thread) {frame : Frame} (hframe : s.frames t = some frame)
      (hparking : frame.parking = true) (htoken : s.token t = true) :
      Step s .silent
        { s with
          frames := Function.update s.frames t (some { frame with parking := false })
          token := Function.update s.token t false }
  /-- `std::thread::park()` returns spuriously. -/
  | parkSpurious (t : Thread) {frame : Frame} (hframe : s.frames t = some frame)
      (hparking : frame.parking = true) :
      Step s .silent
        { s with frames := Function.update s.frames t (some { frame with parking := false }) }
  /-- `try_lock_*` -/
  | tryLock (t : Thread) (isWrite : Bool) (range : Range Index) (state : Addr) {success : Bool}
      {w : World Index Priority (InProgress Thread)} (hmutex : s.mutex = .free)
      (hframe : s.frames t = none) (haccepted : debug = false → range.start < range.stop)
      (h : Call.perform debug (.tryLock isWrite core state range) ⟨s.store, []⟩ =
        .ok (.locked success) w) :
      Step s .silent { s with store := w.store }
  /-- `unlock_*` takes the mutex.  Nobody else uses the lock state in the meantime. -/
  | unlock (t : Thread) (p : LockPtr) {result : Option (InProgress Thread)}
      {w : World Index Priority (InProgress Thread)} (hmutex : s.mutex = .free)
      (hframe : s.frames t = none) (hborrow : ¬ s.Borrowed p)
      (h : Call.perform debug (.unlock core p) ⟨s.store, []⟩ = .ok (.unlocked result) w) :
      Step s .silent
        { s with mutex := .held ⟨p, result, w.store, (completions w.log).reverse, none, []⟩ }
  /-- `complete.store(true, Ordering::Relaxed)` -/
  | store {call : Unlocking Index Priority Thread} {p : LockPtr} {inProgress : InProgress Thread}
      {rest : List (LockPtr × InProgress Thread)} (hmutex : s.mutex = .held call)
      (hunparking : call.unparking = none) (hcallbacks : call.callbacks = (p, inProgress) :: rest) :
      Step s (.stored p inProgress)
        { s with
          mutex := .held { call with
            callbacks := rest, unparking := some (p, inProgress), completed := p :: call.completed }
          frames := storeFlag inProgress.complete s.frames }
  /-- `in_progress.waiter.unpark()` -/
  | unpark {call : Unlocking Index Priority Thread} {p : LockPtr} {inProgress : InProgress Thread}
      (hmutex : s.mutex = .held call) (hunparking : call.unparking = some (p, inProgress)) :
      Step s (.unparked p inProgress)
        { s with
          mutex := .held { call with unparking := none }
          token := Function.update s.token inProgress.waiter true }
  /-- `unlock_*` gives the mutex back, and fails if it has cancelled a lock. -/
  | unlocked {call : Unlocking Index Priority Thread} (hmutex : s.mutex = .held call)
      (hunparking : call.unparking = none) (hcallbacks : call.callbacks = []) :
      Step s (.unlocked call.lock call.result)
        { s with
          store := call.store
          mutex := if debug && call.result.isSome then .poisoned else .free }
  /-- A call of the core panics. -/
  | panicked (t : Thread) (call : Call Index Priority (InProgress Thread)) {message : String}
      {w : World Index Priority (InProgress Thread)} (hmutex : s.mutex = .free)
      (hframe : s.frames t = none) (haccepted : debug = false → call.Accepted Nonempty)
      (h : call.perform debug ⟨s.store, []⟩ = .error (.panic message) w) :
      Step s .panicked { s with store := w.store, mutex := .poisoned }
  /-- Somebody else unparks the thread. -/
  | otherUnpark (t : Thread) : Step s .silent { s with token := Function.update s.token t true }
  /-- The thread parks itself outside of a lock call. -/
  | otherPark (t : Thread) (hframe : s.frames t = none) :
      Step s .silent { s with token := Function.update s.token t false }

/-- The states that can be reached, with the labels of the steps, newest first. -/
inductive Run : List (Label Thread) → State Index Priority Thread → Prop where
  | init : Run [] .init
  | step {trace s label s'} (run : Run trace s) (step : Step debug core s label s') :
      Run (label :: trace) s'

end Interlock.Raw.Sync
