import Interlock.Core.Client

/-!
# The asynchronous lock

`raw/future.rs`: a core behind a mutex, whose waiting locks carry the waker of the task that polls
them.  A step is a method of `AsyncRawIntervalRwLock`, which runs under the mutex from beginning to
end; any task can take it.

Ranges are non-empty where debug assertions are off (`haccepted`).  With them on, any range may be
passed, and an empty one makes the method panic.
-/

namespace Interlock.Raw.Future

open Interlock.Core Interlock.Memory Interlock.RbTree

/-! ## The methods -/

/-- The structure that describes a pending borrow operation. -/
structure InProgress (Waker : Type) where
  waker : Option Waker

variable {Index Priority Waker Task : Type}

section Methods
variable (willWake : Waker → Waker → Bool)

/-- `InProgress::set_waker` -/
def InProgress.setWaker (newWaker : Waker) (inProgress : InProgress Waker) : InProgress Waker :=
  match inProgress.waker with
  | some oldWaker => if willWake oldWaker newWaker then inProgress else ⟨some newWaker⟩
  | none => ⟨some newWaker⟩

/-- `LockCallbackImpl` -/
def lockCallbackImpl : LockCallback (InProgress Waker) Unit := ⟨((), ⟨none⟩), ()⟩

/-- `UnlockCallbackImpl::complete`: the waker that it wakes. -/
def complete (inProgress : InProgress Waker) : List Waker := inProgress.waker.toList

/-- `Poll<()>` -/
inductive Poll where
  | ready
  | pending
  deriving DecidableEq

variable [LinearOrder Index] [LinearOrder Priority] (debug : Bool) (core : Addr)

def tryLockRead (range : Range Index) (state : Addr) :
    CoreM Index Priority (InProgress Waker) Bool := Core.tryLockRead debug core range state

def tryLockWrite (range : Range Index) (state : Addr) :
    CoreM Index Priority (InProgress Waker) Bool := Core.tryLockWrite debug core range state

def unlockTryRead (state : Addr) : CoreM Index Priority (InProgress Waker) Unit :=
  Core.unlockTryRead debug core state

def unlockTryWrite (state : Addr) : CoreM Index Priority (InProgress Waker) Unit :=
  Core.unlockTryWrite debug core state

def startLockRead (range : Range Index) (priority : Priority) (state : Addr) :
    CoreM Index Priority (InProgress Waker) Unit :=
  lockRead debug core range priority state lockCallbackImpl

def startLockWrite (range : Range Index) (priority : Priority) (state : Addr) :
    CoreM Index Priority (InProgress Waker) Unit :=
  lockWrite debug core range priority state lockCallbackImpl

/-- What `poll_lock_read` and `poll_lock_write` have in common. -/
def pollLockWith (inspect : CoreM Index Priority (InProgress Waker) (LockState (InProgress Waker)))
    (lock : LockPtr) (cx : Waker) : CoreM Index Priority (InProgress Waker) Poll := do
  match ← inspect with
  | .complete => return .ready
  | .inProgress _ =>
      writeInProgress core lock (InProgress.setWaker willWake cx)
      return .pending

def pollLockRead (state : Addr) (cx : Waker) : CoreM Index Priority (InProgress Waker) Poll :=
  pollLockWith willWake core (inspectReadMut core state) ⟨.read, state⟩ cx

def pollLockWrite (state : Addr) (cx : Waker) : CoreM Index Priority (InProgress Waker) Poll :=
  pollLockWith willWake core (inspectWriteMut core state) ⟨.write, state⟩ cx

def unlockRead (state : Addr) : CoreM Index Priority (InProgress Waker) Unit := do
  let _ ← Core.unlockRead debug core state

def unlockWrite (state : Addr) : CoreM Index Priority (InProgress Waker) Unit := do
  let _ ← Core.unlockWrite debug core state

end Methods

/-! ## Runs -/

/-- A method and its arguments. -/
inductive Op (Index Priority Waker : Type) where
  | tryLock (isWrite : Bool) (core : Addr) (range : Range Index) (state : Addr)
  | unlockTry (isWrite : Bool) (core state : Addr)
  | startLock (isWrite : Bool) (core : Addr) (range : Range Index) (priority : Priority)
      (state : Addr)
  | pollLock (isWrite : Bool) (core state : Addr) (cx : Waker)
  | unlock (isWrite : Bool) (core state : Addr)

/-- What a method returns. -/
inductive Answer where
  | unit
  | locked (success : Bool)
  | polled (poll : Poll)

/-- What tasks see. -/
inductive Event (Index Priority Waker : Type) where
  /-- `Waker::wake` is called for a lock that has waited. -/
  | woken (lock : LockPtr) (waker : Waker)
  | returned (op : Op Index Priority Waker) (answer : Answer)
  | panicked (op : Op Index Priority Waker)

structure State (Index Priority Waker : Type) where
  store : Store Index Priority (InProgress Waker)
  /-- Newest first. -/
  log : List (Event Index Priority Waker)

def State.init : State Index Priority Waker := ⟨.init, []⟩

/-- The range that is passed, if there is one, is not empty. -/
def Op.Accepted [LinearOrder Index] : Op Index Priority Waker → Prop
  | .tryLock _ _ range _ | .startLock _ _ range _ _ => range.start < range.stop
  | .unlockTry .. | .pollLock .. | .unlock .. => True

/-- The wakers that a method has woken. -/
def wakes {Mem : Type} (log : List (Core.Event Index Priority (InProgress Waker) Mem)) :
    List (Event Index Priority Waker) :=
  (completions log).flatMap fun x => (complete x.2).map (.woken x.1)

section Runs
variable [LinearOrder Index] [LinearOrder Priority] (willWake : Waker → Waker → Bool) (debug : Bool)

def Op.perform : Op Index Priority Waker → CoreM Index Priority (InProgress Waker) Answer
  | .tryLock isWrite core range state => do
      return .locked (← if isWrite then tryLockWrite debug core range state
        else tryLockRead debug core range state)
  | .unlockTry isWrite core state => do
      if isWrite then unlockTryWrite debug core state else unlockTryRead debug core state
      return .unit
  | .startLock isWrite core range priority state => do
      if isWrite then startLockWrite debug core range priority state
      else startLockRead debug core range priority state
      return .unit
  | .pollLock isWrite core state cx => do
      return .polled (← if isWrite then pollLockWrite willWake core state cx
        else pollLockRead willWake core state cx)
  | .unlock isWrite core state => do
      if isWrite then unlockWrite debug core state else unlockRead debug core state
      return .unit

/-- A task calls a method, which runs on its own.  Without debug assertions, the ranges must not be
empty. -/
inductive Step (s : State Index Priority Waker) : State Index Priority Waker → Prop where
  | returned (op : Op Index Priority Waker) {answer : Answer}
      {w : World Index Priority (InProgress Waker)} (haccepted : debug = false → op.Accepted)
      (h : op.perform willWake debug ⟨s.store, []⟩ = .ok answer w) :
      Step s ⟨w.store, .returned op answer :: (wakes w.log ++ s.log)⟩
  | panicked (op : Op Index Priority Waker) {message : String}
      {w : World Index Priority (InProgress Waker)} (haccepted : debug = false → op.Accepted)
      (h : op.perform willWake debug ⟨s.store, []⟩ = .error (.panic message) w) :
      Step s ⟨w.store, .panicked op :: (wakes w.log ++ s.log)⟩

/-- The states that can be reached. -/
inductive Run : State Index Priority Waker → Prop where
  | init : Run .init
  | step {s s'} (run : Run s) (step : Step willWake debug s s') : Run s'

end Runs

/-- The most recent poll of `p`, if it has returned `Poll::Pending` and `p` has not been unlocked
since: its waker, and the wakers that have been woken for `p` since. -/
def pendingPoll (p : LockPtr) : List (Event Index Priority Waker) → Option (Waker × List Waker)
  | [] => none
  | .woken q waker :: log =>
      if q = p then (pendingPoll p log).map fun x => (x.1, waker :: x.2) else pendingPoll p log
  | .returned (.pollLock isWrite _ state waker) answer :: log =>
      if lockPtr isWrite state = p then
        match answer with
        | .polled .pending => some (waker, [])
        | _ => none
      else pendingPoll p log
  | .returned (.unlock isWrite _ state) _ :: log =>
      if lockPtr isWrite state = p then none else pendingPoll p log
  | .returned (.unlockTry isWrite _ state) _ :: log =>
      if tryLockPtr isWrite state = p then none else pendingPoll p log
  | _ :: log => pendingPoll p log

/-- The wakers that have been woken for `p`, newest first, since the last time that it was
unlocked. -/
def wokenFor (p : LockPtr) : List (Event Index Priority Waker) → List Waker
  | [] => []
  | .woken q waker :: log => if q = p then waker :: wokenFor p log else wokenFor p log
  | .returned (.unlock isWrite _ state) _ :: log =>
      if lockPtr isWrite state = p then [] else wokenFor p log
  | .returned (.unlockTry isWrite _ state) _ :: log =>
      if tryLockPtr isWrite state = p then [] else wokenFor p log
  | _ :: log => wokenFor p log

/-! ## Methods and calls of the core -/

/-- The call of the core that a method makes. -/
def Op.call (willWake : Waker → Waker → Bool) :
    Op Index Priority Waker → Call Index Priority (InProgress Waker)
  | .tryLock isWrite core range state => .tryLock isWrite core state range
  | .unlockTry isWrite core state => .unlock core (tryLockPtr isWrite state)
  | .startLock isWrite core range priority state => .lock isWrite core state range priority ⟨none⟩
  | .pollLock isWrite core state cx => .inspect isWrite core state (InProgress.setWaker willWake cx)
  | .unlock isWrite core state => .unlock core (lockPtr isWrite state)

/-- What a method makes of the reply. -/
def Op.answer : Op Index Priority Waker → Reply (InProgress Waker) → Answer
  | .tryLock .., .locked success => .locked success
  | .pollLock .., .inspected (.inProgress _) => .polled .pending
  | .pollLock .., .inspected .complete => .polled .ready
  | _, _ => .unit

section Calls
variable [LinearOrder Index] [LinearOrder Priority] {willWake : Waker → Waker → Bool} {debug : Bool}

/-- Each method is a call of the core. -/
theorem Op.perform_eq (op : Op Index Priority Waker) :
    op.perform willWake debug = op.answer <$> (op.call willWake).perform debug := by
  cases op with
  | tryLock isWrite core range state =>
      cases isWrite <;> simp [Op.perform, Op.call, Call.perform, Op.answer,
        tryLockRead, tryLockWrite]
  | unlockTry isWrite core state =>
      cases isWrite <;> simp [Op.perform, Op.call, Call.perform, Op.answer, unlockTryRead,
        unlockTryWrite, tryLockPtr]
  | startLock isWrite core range priority state =>
      have hlock :
          ∀ (conflict : CoreM Index Priority (InProgress Waker) (Option Index)) borrow lock,
          (do
            lockWith debug core conflict borrow lock range priority lockCallbackImpl
            return Answer.unit) =
          Op.answer (.startLock isWrite core range priority state : Op Index Priority Waker) <$> (do
            let complete ← lockWith debug core conflict borrow lock range priority
              ⟨(false, ⟨none⟩), true⟩
            return .locked complete) := by
        intro conflict borrow lock
        have hmap : lockWith debug core conflict borrow lock range priority lockCallbackImpl =
            (fun _ => ()) <$> lockWith debug core conflict borrow lock range priority
              ⟨(false, (⟨none⟩ : InProgress Waker)), true⟩ :=
          lockWith_map (fun _ : Bool => ()) conflict borrow lock range priority
            ⟨(false, ⟨none⟩), true⟩
        rw [hmap]
        simp [Op.answer]
      cases isWrite with
      | true => exact hlock _ _ _
      | false => exact hlock _ _ _
  | pollLock isWrite core state cx =>
      cases isWrite with
      | true =>
          simp only [Op.perform, Op.call, Call.perform, pollLockWrite, pollLockWith, map_bind,
            bind_assoc, if_true]
          refine bind_congr fun lockState => ?_
          cases lockState with
          | complete => simp [Op.answer]
          | inProgress value => simp [Op.answer, lockPtr]
      | false =>
          simp only [Op.perform, Op.call, Call.perform, pollLockRead, pollLockWith, map_bind,
            bind_assoc, Bool.false_eq_true, if_false]
          refine bind_congr fun lockState => ?_
          cases lockState with
          | complete => simp [Op.answer]
          | inProgress value => simp [Op.answer, lockPtr]
  | unlock isWrite core state =>
      cases isWrite <;> simp [Op.perform, Op.call, Call.perform, Op.answer, unlockRead, unlockWrite,
        lockPtr]

omit [LinearOrder Priority] in
theorem Op.accepted_call (op : Op Index Priority Waker) :
    (op.call willWake).Accepted Nonempty ↔ op.Accepted := by
  cases op <;> rfl

end Calls

/-! ## The invariant -/

theorem wakes_erase {Mem : Type} (log : List (Core.Event Index Priority (InProgress Waker) Mem)) :
    wakes (log.map Event.erase) = wakes log := by
  rw [wakes, completions_erase, wakes]

/-- What the phase of `p` says of the wakers. -/
def Tracks (task : Waker → Task) (p : LockPtr) (log : List (Event Index Priority Waker)) :
    Phase (InProgress Waker) → Prop
  | .free => pendingPoll p log = none ∧ wokenFor p log = []
  | .pending value => wokenFor p log = [] ∧
      (pendingPoll p log).map (fun x => (task x.1, x.2)) = value.waker.map fun waker =>
        (task waker, [])
  | .complete => (wokenFor p log).length ≤ 1 ∧
      ∀ x, pendingPoll p log = some x → ∃ waker, x.2 = [waker] ∧ task waker = task x.1

section Invariant
variable {task : Waker → Task} {p : LockPtr} {log : List (Event Index Priority Waker)}
  {history events : History Index Priority (InProgress Waker)} {ph : Phase (InProgress Waker)}

theorem Tracks.congr {log' : List (Event Index Priority Waker)} (h : Tracks task p log ph)
    (hwoken : wokenFor p log' = wokenFor p log) (hpoll : pendingPoll p log' = pendingPoll p log) :
    Tracks task p log' ph := by
  cases ph with
  | free => exact ⟨hpoll.trans h.1, hwoken.trans h.2⟩
  | pending value =>
      refine ⟨hwoken.trans h.1, ?_⟩
      rw [hpoll]
      exact h.2
  | complete =>
      refine ⟨?_, fun x hx => h.2 x (hpoll.symm.trans hx)⟩
      rw [hwoken]
      exact h.1

/-- The wakers of a release are those of the locks that it completes. -/
theorem Tracks.release (hrelease : ∀ event ∈ events, event.isRelease = true)
    (horderly : Logged (fun event history => event.Orderly history) (events ++ history))
    (h : Tracks task p log (phase p history)) :
    Tracks task p (wakes events ++ log) (phase p (events ++ history)) := by
  induction events with
  | nil => exact h
  | cons event events ih =>
      obtain ⟨hevent, horderly⟩ := horderly
      have ih := ih (fun e he => hrelease e (List.mem_cons_of_mem _ he)) horderly
      have hisRelease := hrelease event List.mem_cons_self
      cases hevent with
      | complete q value hphase =>
          have hwakes : wakes (.complete q value () :: events) ++ log =
              (complete value).map (.woken q) ++ (wakes events ++ log) := by
            rw [wakes, ← List.append_assoc]
            rfl
          rw [hwakes]
          by_cases hqp : q = p
          · subst hqp
            have hphase : phase q (events ++ history) = .pending value := hphase
            rw [hphase] at ih
            obtain ⟨hwoken, hpoll⟩ := ih
            have hcomplete : phase q (.complete q value () :: (events ++ history)) = .complete :=
              if_pos rfl
            rw [List.cons_append, hcomplete]
            cases hwaker : value.waker with
            | none =>
                rw [hwaker] at hpoll
                have hnone : pendingPoll q (wakes events ++ log) = none := by simpa using hpoll
                simp [complete, hwaker, Tracks, hwoken, hnone]
            | some waker =>
                rw [hwaker] at hpoll
                obtain ⟨x, hx, hxwaker⟩ := Option.map_eq_some_iff.mp hpoll
                obtain ⟨htask, hnil⟩ := Prod.mk.inj hxwaker
                simp [complete, hwaker, Tracks, wokenFor, pendingPoll, hwoken, hx, hnil, htask]
          · have hsame : phase p (.complete q value () :: (events ++ history)) =
                phase p (events ++ history) := if_neg hqp
            rw [List.cons_append, hsame]
            cases hwaker : value.waker with
            | none => simpa [complete, hwaker] using ih
            | some waker =>
                have hlog : wokenFor p (.woken q waker :: (wakes events ++ log)) =
                    wokenFor p (wakes events ++ log) := if_neg hqp
                have hpoll : pendingPoll p (.woken q waker :: (wakes events ++ log)) =
                    pendingPoll p (wakes events ++ log) := if_neg hqp
                rw [complete, hwaker]
                exact ih.congr hlog hpoll
      | resuming | resumed => exact ih
      | inProgress | lockComplete | lock | tryLock | unlock | inspectPending | inspectComplete =>
          cases hisRelease

/-- `will_wake` is right about wakers of different tasks. -/
theorem setWaker_task {willWake : Waker → Waker → Bool}
    (hwillWake : ∀ old new, willWake old new = true → task old = task new) (cx : Waker)
    (value : InProgress Waker) :
    ∃ waker, (InProgress.setWaker willWake cx value).waker = some waker ∧ task waker = task cx := by
  unfold InProgress.setWaker
  cases hwaker : value.waker with
  | none => exact ⟨cx, rfl, rfl⟩
  | some old =>
      by_cases hsame : willWake old cx = true
      · refine ⟨old, ?_, hwillWake old cx hsame⟩
        simp [hsame, hwaker]
      · refine ⟨cx, ?_, rfl⟩
        simp [hsame]

/-- A lock that has not been in use. -/
theorem Tracks.claim (h : Tracks task p log .free) :
    Tracks task p log (.pending ⟨none⟩) ∧ Tracks task p log .complete := by
  obtain ⟨hpoll, hwoken⟩ := h
  refine ⟨⟨hwoken, by rw [hpoll]; rfl⟩, by simp [hwoken], fun x hx => ?_⟩
  rw [hpoll] at hx
  cases hx

theorem Tracks.returned {willWake : Waker → Waker → Bool}
    (hwillWake : ∀ old new, willWake old new = true → task old = task new)
    (op : Op Index Priority Waker) {reply : Reply (InProgress Waker)}
    (hemits : (op.call willWake).Emits reply events)
    (horderly : Logged (fun event history => event.Orderly history)
      (.returned (op.call willWake) reply () :: (events ++ history)))
    (h : Tracks task p log (phase p history)) :
    Tracks task p (.returned op (op.answer reply) :: (wakes events ++ log))
      (phase p (.returned (op.call willWake) reply () :: (events ++ history))) := by
  obtain ⟨hevent, horderly⟩ := horderly
  cases op with
  | tryLock isWrite core range state =>
      cases hemits with
      | tryLock _ _ _ _ success =>
          cases hevent with
          | tryLock _ _ _ _ _ _ hfree =>
              refine (?_ : Tracks task p log _).congr rfl rfl
              cases success with
              | false => exact h
              | true =>
                  by_cases hqp : tryLockPtr isWrite state = p
                  · have hcomplete : phase p (.returned (.tryLock isWrite core state range)
                        (.locked true) () :: history) = .complete := if_pos hqp
                    have hfree : phase p history = .free := hqp ▸ hfree rfl
                    rw [hfree] at h
                    exact hcomplete ▸ h.claim.2
                  · have hsame : phase p (.returned (.tryLock isWrite core state range)
                        (.locked true) () :: history) = phase p history := if_neg hqp
                    exact hsame ▸ h
  | startLock isWrite core range priority state =>
      cases hemits with
      | lock _ _ _ _ _ _ complete =>
          cases complete with
          | true =>
              obtain ⟨hlock, -⟩ := horderly
              cases hlock with
              | lockComplete _ hfree =>
                  refine (?_ : Tracks task p log _).congr rfl rfl
                  by_cases hqp : lockPtr isWrite state = p
                  · have hcomplete : phase p
                      (.returned (.lock isWrite core state range priority ⟨none⟩)
                        (.locked true) () :: .lockComplete (lockPtr isWrite state) :: history) =
                        .complete := if_pos hqp
                    have hfree : phase p history = .free := hqp ▸ hfree
                    rw [hfree] at h
                    exact hcomplete ▸ h.claim.2
                  · have hsame : phase p (.returned (.lock isWrite core state range priority ⟨none⟩)
                        (.locked true) () :: .lockComplete (lockPtr isWrite state) :: history) =
                        phase p history := if_neg hqp
                    exact hsame ▸ h
          | false =>
              obtain ⟨hlock, -⟩ := horderly
              cases hlock with
              | inProgress _ _ hfree =>
                  refine (?_ : Tracks task p log _).congr rfl rfl
                  by_cases hqp : lockPtr isWrite state = p
                  · have hpending : phase p
                      (.returned (.lock isWrite core state range priority ⟨none⟩)
                        (.locked false) () :: .inProgress (lockPtr isWrite state) ⟨none⟩ ::
                          history) = .pending ⟨none⟩ := if_pos hqp
                    have hfree : phase p history = .free := hqp ▸ hfree
                    rw [hfree] at h
                    exact hpending ▸ h.claim.1
                  · have hsame : phase p (.returned (.lock isWrite core state range priority ⟨none⟩)
                        (.locked false) () :: .inProgress (lockPtr isWrite state) ⟨none⟩ ::
                          history) = phase p history := if_neg hqp
                    exact hsame ▸ h
  | pollLock isWrite core state cx =>
      cases hemits with
      | inspect _ _ _ _ lockState =>
          cases hevent with
          | inspectPending _ _ _ _ value _ hphase =>
              by_cases hqp : lockPtr isWrite state = p
              · have hpending : phase p (.returned (.inspect isWrite core state
                    (InProgress.setWaker willWake cx)) (.inspected (.inProgress value)) () ::
                      history) = .pending (InProgress.setWaker willWake cx value) := if_pos hqp
                have hphase : phase p history = .pending value := hqp ▸ hphase
                rw [hphase] at h
                obtain ⟨waker, hwaker, htask⟩ := setWaker_task hwillWake cx value
                have hpoll : pendingPoll p (.returned (.pollLock isWrite core state cx)
                    (.polled .pending) :: log) = some (cx, []) := if_pos hqp
                have htracks : Tracks task p (.returned (.pollLock isWrite core state cx)
                    (.polled .pending) :: log) (.pending
                      (InProgress.setWaker willWake cx value)) := by
                  refine ⟨h.1, ?_⟩
                  rw [hpoll, hwaker]
                  simp [htask]
                exact hpending ▸ htracks
              · have hsame : phase p (.returned (.inspect isWrite core state
                    (InProgress.setWaker willWake cx)) (.inspected (.inProgress value)) () ::
                      history) = phase p history := if_neg hqp
                exact hsame ▸ h.congr rfl (if_neg hqp)
          | inspectComplete _ _ _ _ _ hphase =>
              by_cases hqp : lockPtr isWrite state = p
              · have hphase : phase p history = .complete := hqp ▸ hphase
                have hpoll : pendingPoll p (.returned (.pollLock isWrite core state cx)
                    (.polled .ready) :: log) = none := if_pos hqp
                have hcomplete : phase p (.returned (.inspect isWrite core state
                    (InProgress.setWaker willWake cx)) (.inspected .complete) () :: history) =
                    .complete := hphase
                rw [hphase] at h
                have htracks : Tracks task p (.returned (.pollLock isWrite core state cx)
                    (.polled .ready) :: log) .complete := by
                  refine ⟨h.1, fun x hx => ?_⟩
                  rw [hpoll] at hx
                  cases hx
                exact hcomplete ▸ htracks
              · exact h.congr rfl (if_neg hqp)
  | unlockTry isWrite core state =>
      cases hemits with
      | unlock _ _ value hrelease =>
          have h := h.release hrelease horderly
          by_cases hqp : tryLockPtr isWrite state = p
          · have hfree : phase p (.returned (.unlock core (tryLockPtr isWrite state))
              (.unlocked value) ()
                :: (events ++ history)) = .free := if_pos hqp
            exact hfree ▸ ⟨if_pos hqp, if_pos hqp⟩
          · have hsame : phase p (.returned (.unlock core (tryLockPtr isWrite state))
              (.unlocked value) ()
                :: (events ++ history)) = phase p (events ++ history) := if_neg hqp
            exact hsame ▸ h.congr (if_neg hqp) (if_neg hqp)
  | unlock isWrite core state =>
      cases hemits with
      | unlock _ _ value hrelease =>
          have h := h.release hrelease horderly
          by_cases hqp : lockPtr isWrite state = p
          · have hfree : phase p (.returned (.unlock core (lockPtr isWrite state))
              (.unlocked value) ()
                :: (events ++ history)) = .free := if_pos hqp
            exact hfree ▸ ⟨if_pos hqp, if_pos hqp⟩
          · have hsame : phase p (.returned (.unlock core (lockPtr isWrite state))
              (.unlocked value) ()
                :: (events ++ history)) = phase p (events ++ history) := if_neg hqp
            exact hsame ▸ h.congr (if_neg hqp) (if_neg hqp)

end Invariant

/-! ## Wake-ups -/

variable [LinearOrder Index] [LinearOrder Priority] {willWake : Waker → Waker → Bool} {debug : Bool}
  {task : Waker → Task} {s s' : State Index Priority Waker}

/-- The log tells the phases of the locks. -/
def State.Tracked (task : Waker → Task) (s : State Index Priority Waker) : Prop :=
  ∃ history, s.store.After history ∧ ∀ p, Tracks task p s.log (phase p history)

theorem Step.tracked (hwillWake : ∀ old new, willWake old new = true → task old = task new)
    (h : s.Tracked task) (step : Step willWake debug s s') : s'.Tracked task := by
  obtain ⟨history, hafter, htracks⟩ := h
  cases step with
  | @returned op answer w haccepted hperform =>
      have hreturns : Runs (op.perform willWake debug) ⟨s.store, []⟩ fun a t =>
        a = answer ∧ t = w :=
        ⟨answer, w, hperform, rfl, rfl⟩
      rw [op.perform_eq, runs_map] at hreturns
      obtain ⟨reply, w', hcore, rfl, rfl⟩ := hreturns
      obtain ⟨hemits, hafter'⟩ :=
        hafter.returned (fun hdebug => op.accepted_call.mpr (haccepted hdebug)) hcore
      refine ⟨_, hafter', fun p => ?_⟩
      rw [← wakes_erase w'.log]
      exact (htracks p).returned hwillWake op hemits hafter'.orderly
  | @panicked op message w haccepted hperform =>
      have hpanics : Panics (op.perform willWake debug) ⟨s.store, []⟩ message (· = w) :=
        ⟨w, hperform, rfl⟩
      rw [op.perform_eq, panics_map] at hpanics
      obtain ⟨w', hcore, rfl⟩ := hpanics
      obtain ⟨hstore, hnone⟩ :=
        hafter.panicked (fun hdebug => op.accepted_call.mpr (haccepted hdebug)) hcore
      refine ⟨history, hstore ▸ hafter, fun p => ?_⟩
      have hwakes : (wakes w'.log : List (Event Index Priority Waker)) = [] := by
        rw [wakes, hnone, List.flatMap_nil]
      rw [hwakes]
      exact (htracks p).congr rfl rfl

theorem Run.tracked (hwillWake : ∀ old new, willWake old new = true → task old = task new)
    (run : Run willWake debug s) : s.Tracked task := by
  induction run with
  | init => exact ⟨[], Store.After.init, fun p => ⟨rfl, rfl⟩⟩
  | step run step ih => exact step.tracked hwillWake ih

/-- The state after some methods, if all of them return. -/
def State.performs (willWake : Waker → Waker → Bool) (debug : Bool) : State Index Priority Waker →
    List (Op Index Priority Waker) → Option (State Index Priority Waker)
  | s, [] => some s
  | s, op :: ops =>
      match op.perform willWake debug ⟨s.store, []⟩ with
      | .ok answer w => performs willWake debug
          ⟨w.store, .returned op answer :: (wakes w.log ++ s.log)⟩ ops
      | .error _ _ => none

theorem Run.performs {ops : List (Op Index Priority Waker)} (run : Run willWake true s)
    (h : s.performs willWake true ops = some s') : Run willWake true s' := by
  induction ops generalizing s with
  | nil =>
      obtain rfl := Option.some.inj h
      exact run
  | cons op ops ih =>
      rw [State.performs] at h
      split at h
      · next answer w hperform =>
          exact ih (run.step (.returned op (fun hdebug => by cases hdebug) hperform)) h
      · cases h

/-- A writer holds `0..10`.  A reader waits for it, and is polled with two wakers of one task before
the writer is unlocked. -/
def visit (core writer reader : Addr) : List (Op ℕ ℕ (ℕ × ℕ)) :=
  [.startLock true core ⟨0, 10⟩ 0 writer, .startLock false core ⟨5, 15⟩ 0 reader,
    .pollLock false core reader (7, 0), .pollLock false core reader (7, 1),
      .unlock true core writer]

end Interlock.Raw.Future
