import Interlock.Core.Progress
import Interlock.Raw.Future

/-!
# Tasks and their executor

Tasks await the futures of `raw/future.rs`, and an executor gives a turn to the tasks that have been
woken.  In its turn a task polls the futures that it awaits, and takes the guard out of a future
that is ready.  The turns of different tasks are interleaved, and guards and futures may be dropped
at any time.  As in `Future`, ranges are non-empty where debug assertions are off.
-/

namespace Interlock.Raw.Future

open Interlock.Core Interlock.Memory Interlock.RbTree

variable {Index Priority Waker Task : Type}

/-- The wakers that a method has woken, with the locks that have waited. -/
def wakers {Mem : Type} (log : List (Core.Event Index Priority (InProgress Waker) Mem)) :
    List (LockPtr × Waker) :=
  (completions log).flatMap fun x => (complete x.2).map fun waker => (x.1, waker)

/-! ## The tasks -/

structure Runtime (Index Priority Waker Task : Type) where
  lock : State Index Priority Waker
  /-- The task that awaits the future with this lock state. -/
  owner : LockPtr → Option Task
  /-- The future has been polled in the current turn of its task, or in the last one. -/
  polled : LockPtr → Bool
  /-- The task has been woken. -/
  ready : Task → Bool
  /-- It is the turn of the task. -/
  running : Task → Bool

def Runtime.init : Runtime Index Priority Waker Task :=
  ⟨.init, fun _ => none, fun _ => false, fun _ => false, fun _ => false⟩

variable [DecidableEq Task] (task : Waker → Task)

/-- The tasks whose wakers a method has woken are ready. -/
def Runtime.after (s : Runtime Index Priority Waker Task)
    (event : Event Index Priority Waker) (w : World Index Priority (InProgress Waker)) :
    Runtime Index Priority Waker Task :=
  { s with
    lock := ⟨w.store, event :: (wakes w.log ++ s.lock.log)⟩
    ready := fun t => s.ready t || (wakers w.log).any fun x => decide (task x.2 = t) }

variable [LinearOrder Index] [LinearOrder Priority] (willWake : Waker → Waker → Bool) (debug : Bool)
  (core : Addr)

inductive Runtime.Step (s : Runtime Index Priority Waker Task) :
    Runtime Index Priority Waker Task → Prop where
  /-- A task is spawned, or it is woken for another reason. -/
  | wake (t : Task) : Step s { s with ready := Function.update s.ready t true }
  /-- The executor gives a turn to a task that is ready. -/
  | schedule (t : Task) (hready : s.ready t = true) (hrunning : s.running t = false) :
      Step s { s with
        polled := fun p => s.polled p && decide (s.owner p ≠ some t)
        ready := Function.update s.ready t false
        running := Function.update s.running t true }
  /-- `async_read` or `async_write`. -/
  | start (t : Task) (isWrite : Bool) (range : Range Index) (priority : Priority) (state : Addr)
      {answer : Answer} {w : World Index Priority (InProgress Waker)}
        (hrunning : s.running t = true)
      (haccepted : debug = false → range.start < range.stop)
      (h : (Op.startLock isWrite core range priority state).perform willWake debug
        ⟨s.lock.store, []⟩ = .ok answer w) :
      Step s { s.after task (.returned (.startLock isWrite core range priority state) answer) w with
        owner := Function.update s.owner (lockPtr isWrite state) (some t)
        polled := Function.update s.polled (lockPtr isWrite state) false }
  /-- A task takes a future over. -/
  | adopt (t t' : Task) (p : LockPtr) (hrunning : s.running t = true)
      (howner : s.owner p = some t') :
      Step s { s with
        owner := Function.update s.owner p (some t)
        polled := Function.update s.polled p false }
  | pollPending (t : Task) (isWrite : Bool) (state : Addr) (cx : Waker)
      {w : World Index Priority (InProgress Waker)} (hrunning : s.running t = true)
      (howner : s.owner (lockPtr isWrite state) = some t) (hcx : task cx = t)
      (h : (Op.pollLock isWrite core state cx).perform willWake debug ⟨s.lock.store, []⟩ =
        .ok (.polled .pending) w) :
      Step s { s.after task (.returned (.pollLock isWrite core state cx) (.polled .pending)) w with
        polled := Function.update s.polled (lockPtr isWrite state) true }
  /-- The guard is taken out of the future. -/
  | pollReady (t : Task) (isWrite : Bool) (state : Addr) (cx : Waker)
      {w : World Index Priority (InProgress Waker)} (hrunning : s.running t = true)
      (howner : s.owner (lockPtr isWrite state) = some t) (hcx : task cx = t)
      (h : (Op.pollLock isWrite core state cx).perform willWake debug ⟨s.lock.store, []⟩ =
        .ok (.polled .ready) w) :
      Step s { s.after task (.returned (.pollLock isWrite core state cx) (.polled .ready)) w with
        owner := Function.update s.owner (lockPtr isWrite state) none }
  /-- The turn of a task ends when it has polled the futures that it awaits. -/
  | yield (t : Task) (hpolled : ∀ p, s.owner p = some t → s.polled p = true) :
      Step s { s with running := Function.update s.running t false }
  /-- A guard is dropped, or a future with the guard inside. -/
  | drop (isWrite : Bool) (state : Addr) {answer : Answer}
      {w : World Index Priority (InProgress Waker)}
      (h : (Op.unlock isWrite core state).perform willWake debug ⟨s.lock.store, []⟩ =
        .ok answer w) :
      Step s { s.after task (.returned (.unlock isWrite core state) answer) w with
        owner := Function.update s.owner (lockPtr isWrite state) none }
  | tryLock (isWrite : Bool) (range : Range Index) (state : Addr) {answer : Answer}
      {w : World Index Priority (InProgress Waker)}
      (haccepted : debug = false → range.start < range.stop)
      (h : (Op.tryLock isWrite core range state).perform willWake debug ⟨s.lock.store, []⟩ =
        .ok answer w) :
      Step s (s.after task (.returned (.tryLock isWrite core range state) answer) w)
  | unlockTry (isWrite : Bool) (state : Addr) {answer : Answer}
      {w : World Index Priority (InProgress Waker)}
      (h : (Op.unlockTry isWrite core state).perform willWake debug ⟨s.lock.store, []⟩ =
        .ok answer w) :
      Step s (s.after task (.returned (.unlockTry isWrite core state) answer) w)
  /-- A method panics, and the panic is caught. -/
  | panicked (op : Op Index Priority Waker) {message : String}
      {w : World Index Priority (InProgress Waker)} (haccepted : debug = false → op.Accepted)
      (h : op.perform willWake debug ⟨s.lock.store, []⟩ = .error (.panic message) w) :
      Step s (s.after task (.panicked op) w)

/-- The states that can be reached. -/
inductive Runtime.Run : Runtime Index Priority Waker Task → Prop where
  | init : Run .init
  | step {s s'} (run : Run s) (step : Runtime.Step task willWake debug core s s') : Run s'

/-! ## Polls and wakers -/

omit [DecidableEq Task] [LinearOrder Index] [LinearOrder Priority] in
theorem wakes_eq {Mem : Type} (log : List (Core.Event Index Priority (InProgress Waker) Mem)) :
    wakes log = (wakers log).map fun x => (.woken x.1 x.2 : Event Index Priority Waker) := by
  simp [wakes, wakers, List.map_flatMap, Function.comp_def]

omit [DecidableEq Task] [LinearOrder Index] [LinearOrder Priority] in
/-- The wakers of a future that are woken after its last poll are noted with it. -/
theorem pendingPoll_wakers {p : LockPtr} {log : List (Event Index Priority Waker)} {waker : Waker}
    {woken : List Waker} (h : pendingPoll p log = some (waker, woken))
    (xs : List (LockPtr × Waker)) :
    ∃ added, pendingPoll p (xs.map (fun x => .woken x.1 x.2) ++ log) =
      some (waker, added ++ woken) ∧
      ∀ x ∈ added, (p, x) ∈ xs := by
  induction xs with
  | nil => exact ⟨[], h, fun x hx => absurd hx List.not_mem_nil⟩
  | cons y xs ih =>
      obtain ⟨added, hadded, hmem⟩ := ih
      by_cases hy : y.1 = p
      · refine ⟨y.2 :: added, ?_, fun x hx => ?_⟩
        · rw [List.map_cons, List.cons_append, pendingPoll, if_pos hy, hadded]
          rfl
        · rcases List.mem_cons.mp hx with rfl | hx
          · exact hy ▸ List.mem_cons_self
          · exact List.mem_cons_of_mem _ (hmem x hx)
      · refine ⟨added, ?_, fun x hx => List.mem_cons_of_mem _ (hmem x hx)⟩
        rw [List.map_cons, List.cons_append, pendingPoll, if_neg hy, hadded]

section Invariant
variable {task : Waker → Task} {willWake : Waker → Waker → Bool} {debug : Bool} {core : Addr}
  {s s' : Runtime Index Priority Waker Task} {p : LockPtr} {t : Task}
  {event : Event Index Priority Waker} {w : World Index Priority (InProgress Waker)}

omit [DecidableEq Task] in
/-- After `Poll::Pending` the lock waits, or a waker of the same task has been woken. -/
theorem State.Tracked.polled {lock : State Index Priority Waker} (h : lock.Tracked task)
    {waker : Waker} {woken : List Waker} (hpoll : pendingPoll p lock.log = some (waker, woken)) :
    (woken = [] ∧ ∃ pending, lock.store.waiter p = some pending) ∨
      ∃ x, woken = [x] ∧ task x = task waker := by
  obtain ⟨history, hafter, htracks⟩ := h
  have hp := htracks p
  have hinPhase := hafter.inPhase p
  cases hphase : phase p history with
  | free =>
      rw [hphase] at hp
      rw [hp.1] at hpoll
      cases hpoll
  | pending value =>
      rw [hphase] at hp hinPhase
      obtain ⟨pending, hpending, -⟩ := hinPhase
      obtain ⟨-, hmap⟩ := hp
      rw [hpoll, Option.map_some] at hmap
      obtain ⟨waker', -, heq⟩ := Option.map_eq_some_iff.mp hmap.symm
      exact Or.inl ⟨(Prod.mk.inj heq).2.symm, pending, hpending⟩
  | complete =>
      rw [hphase] at hp
      exact Or.inr (hp.2 _ hpoll)

/-- A future that its task awaits will be polled in the current turn of the task, or has been polled
by the task.  If one of its wakers has been woken since, the task is ready. -/
def Runtime.Attended (task : Waker → Task) (s : Runtime Index Priority Waker Task) : Prop :=
  ∀ p t, s.owner p = some t → (p.kind = .read ∨ p.kind = .write) ∧
    (s.polled p = false ∧ s.running t = true ∨
      s.polled p = true ∧ ∃ waker woken, pendingPoll p s.lock.log = some (waker, woken) ∧
        task waker = t ∧ (woken ≠ [] → s.ready t = true))

/-- A method is called, of which the other futures see only that wakers are woken. -/
theorem Runtime.Attended.after (h : s.Attended task)
    (htracked : (s.after task event w).lock.Tracked task) (howner : s.owner p = some t)
    (hsame : (p.kind = .read ∨ p.kind = .write) →
      ∀ log, pendingPoll p (event :: log) = pendingPoll p log) :
    (p.kind = .read ∨ p.kind = .write) ∧
    (s.polled p = false ∧ s.running t = true ∨
      s.polled p = true ∧ ∃ waker woken,
        pendingPoll p (s.after task event w).lock.log = some (waker, woken) ∧ task waker = t ∧
        (woken ≠ [] → (s.after task event w).ready t = true)) := by
  obtain ⟨hkind, hwaits | ⟨hpolled, waker, woken, hpoll, htask, hready⟩⟩ := h p t howner
  · exact ⟨hkind, Or.inl hwaits⟩
  refine ⟨hkind, Or.inr ⟨hpolled, ?_⟩⟩
  obtain ⟨added, hadded, hmem⟩ := pendingPoll_wakers hpoll (wakers w.log)
  rw [← wakes_eq] at hadded
  have hafter : pendingPoll p (s.after task event w).lock.log = some (waker, added ++ woken) :=
    (hsame hkind _).trans hadded
  refine ⟨waker, added ++ woken, hafter, htask, fun hne => ?_⟩
  show (s.ready t || (wakers w.log).any fun x => decide (task x.2 = t)) = true
  rw [Bool.or_eq_true]
  rcases htracked.polled hafter with ⟨hnil, -⟩ | ⟨x, hx, hxtask⟩
  · exact absurd hnil hne
  · -- One waker has been woken since the poll, by this method or before it
    by_cases hwoken : woken = []
    · right
      rw [hwoken, List.append_nil] at hx
      have hxmem := hmem x (hx ▸ List.mem_singleton_self x)
      exact List.any_eq_true.mpr ⟨(p, x), hxmem, decide_eq_true (hxtask.trans htask)⟩
    · exact Or.inl (hready hwoken)

theorem Runtime.Step.lock_step (step : Runtime.Step task willWake debug core s s') :
    s'.lock = s.lock ∨ Future.Step willWake debug s.lock s'.lock := by
  cases step with
  | wake | schedule | adopt | yield => exact Or.inl rfl
  | start t isWrite range priority state hrunning haccepted h =>
      exact Or.inr (.returned _ haccepted h)
  | pollPending t isWrite state cx hrunning howner hcx h =>
      exact Or.inr (.returned _ (fun _ => trivial) h)
  | pollReady t isWrite state cx hrunning howner hcx h =>
      exact Or.inr (.returned _ (fun _ => trivial) h)
  | drop isWrite state h => exact Or.inr (.returned _ (fun _ => trivial) h)
  | tryLock isWrite range state haccepted h => exact Or.inr (.returned _ haccepted h)
  | unlockTry isWrite state h => exact Or.inr (.returned _ (fun _ => trivial) h)
  | panicked op haccepted h => exact Or.inr (.panicked op haccepted h)

theorem Runtime.Run.tracked (hwillWake : ∀ old new, willWake old new = true → task old = task new)
    (run : Runtime.Run task willWake debug core s) : s.lock.Tracked task := by
  induction run with
  | init => exact ⟨[], Store.After.init, fun p => ⟨rfl, rfl⟩⟩
  | step _ step ih =>
      rcases step.lock_step with heq | hstep
      · rw [heq]
        exact ih
      · exact hstep.tracked hwillWake ih

omit [DecidableEq Task] in
theorem tryLockPtr_ne (isWrite : Bool) (state : Addr) (hkind : p.kind = .read ∨ p.kind = .write) :
    tryLockPtr isWrite state ≠ p := by
  rintro rfl
  cases isWrite <;> simp [tryLockPtr] at hkind

theorem Runtime.Attended.step (h : s.Attended task) (htracked : s'.lock.Tracked task)
    (step : Runtime.Step task willWake debug core s s') : s'.Attended task := by
  intro p t howner
  cases step with
  | wake t' =>
      obtain ⟨hkind, hwaits | ⟨hpolled, waker, woken, hpoll, htask, hready⟩⟩ := h p t howner
      · exact ⟨hkind, Or.inl hwaits⟩
      · refine ⟨hkind, Or.inr ⟨hpolled, waker, woken, hpoll, htask, fun hne => ?_⟩⟩
        show Function.update s.ready t' true t = true
        by_cases ht : t = t'
        · rw [ht, Function.update_self]
        · rw [Function.update_of_ne ht]
          exact hready hne
  | schedule t' hready' hrunning' =>
      have howner : s.owner p = some t := howner
      obtain ⟨hkind, hattended⟩ := h p t howner
      refine ⟨hkind, ?_⟩
      by_cases ht : t = t'
      · -- The task begins its turn, and will poll the future
        left
        subst ht
        refine ⟨?_, Function.update_self ..⟩
        show (s.polled p && decide (s.owner p ≠ some t)) = false
        rw [howner]
        simp
      · rcases hattended with ⟨hpolled, hrunning⟩ | ⟨hpolled, waker, woken, hpoll, htask, hready⟩
        · left
          refine ⟨?_, (Function.update_of_ne ht ..).trans hrunning⟩
          show (s.polled p && decide (s.owner p ≠ some t')) = false
          rw [hpolled, Bool.false_and]
        · right
          refine ⟨?_, waker, woken, hpoll, htask, fun hne => ?_⟩
          · show (s.polled p && decide (s.owner p ≠ some t')) = true
            simp [hpolled, howner, ht]
          · exact (Function.update_of_ne ht ..).trans (hready hne)
  | start t' isWrite range priority state hrunning' haccepted hperform =>
      by_cases hp : p = lockPtr isWrite state
      · subst hp
        have howner : Function.update s.owner (lockPtr isWrite state) (some t')
            (lockPtr isWrite state) = some t := howner
        rw [Function.update_self] at howner
        obtain rfl := Option.some.inj howner
        exact ⟨lockPtr_kind isWrite state, Or.inl ⟨Function.update_self .., hrunning'⟩⟩
      · have howner := (Function.update_of_ne hp ..).symm.trans howner
        have hattended := h.after htracked howner fun _ _ => rfl
        rw [← Function.update_of_ne hp false s.polled] at hattended
        exact hattended
  | adopt t' t'' q hrunning' howner' =>
      by_cases hp : p = q
      · subst hp
        have howner : Function.update s.owner p (some t') p = some t := howner
        rw [Function.update_self] at howner
        obtain rfl := Option.some.inj howner
        exact ⟨(h p t'' howner').1, Or.inl ⟨Function.update_self .., hrunning'⟩⟩
      · have hattended := h p t ((Function.update_of_ne hp ..).symm.trans howner)
        rw [← Function.update_of_ne hp false s.polled] at hattended
        exact hattended
  | @pollPending t' isWrite state cx w hrunning' howner' hcx hperform =>
      by_cases hp : p = lockPtr isWrite state
      · subst hp
        obtain rfl := Option.some.inj (howner'.symm.trans howner)
        refine ⟨lockPtr_kind isWrite state,
          Or.inr ⟨Function.update_self .., cx, [], if_pos rfl, hcx,
          fun hne => absurd rfl hne⟩⟩
      · have hattended := h.after htracked howner fun _ _ => if_neg (Ne.symm hp)
        rw [← Function.update_of_ne hp true s.polled] at hattended
        exact hattended
  | pollReady t' isWrite state cx hrunning' howner' hcx hperform =>
      by_cases hp : p = lockPtr isWrite state
      · subst hp
        cases (Function.update_self ..).symm.trans howner
      · have howner := (Function.update_of_ne hp ..).symm.trans howner
        exact h.after htracked howner fun _ _ => if_neg (Ne.symm hp)
  | yield t' hpolled' =>
      have howner : s.owner p = some t := howner
      obtain ⟨hkind, hattended⟩ := h p t howner
      refine ⟨hkind, ?_⟩
      rcases hattended with ⟨hpolled, hrunning⟩ | hpolled
      · left
        refine ⟨hpolled, ?_⟩
        have ht : t ≠ t' := by
          rintro rfl
          rw [hpolled' p howner] at hpolled
          cases hpolled
        exact (Function.update_of_ne ht ..).trans hrunning
      · exact Or.inr hpolled
  | drop isWrite state hperform =>
      by_cases hp : p = lockPtr isWrite state
      · subst hp
        cases (Function.update_self ..).symm.trans howner
      · have howner := (Function.update_of_ne hp ..).symm.trans howner
        exact h.after htracked howner fun _ _ => if_neg (Ne.symm hp)
  | tryLock isWrite range state haccepted hperform => exact h.after htracked howner fun _ _ => rfl
  | unlockTry isWrite state hperform =>
      exact h.after htracked howner fun hkind _ => if_neg (tryLockPtr_ne isWrite state hkind)
  | panicked op haccepted hperform => exact h.after htracked howner fun _ _ => rfl

theorem Runtime.Run.attended (hwillWake : ∀ old new, willWake old new = true → task old = task new)
    (run : Runtime.Run task willWake debug core s) : s.Attended task := by
  induction run with
  | init =>
      intro p t howner
      cases howner
  | step run step ih => exact ih.step ((run.step step).tracked hwillWake) step

/-! ## One core -/

omit [DecidableEq Task] in
theorem onlyCore_returned {store : Store Index Priority (InProgress Waker)}
    {history : History Index Priority (InProgress Waker)} (hafter : store.After history)
    (honly : store.OnlyCore core) {op : Op Index Priority Waker}
    (hcore : (op.call willWake).core = core)
    {answer : Answer} (h : op.perform willWake debug ⟨store, []⟩ = .ok answer w) :
    w.store.OnlyCore core := by
  have hreturns : Runs (op.perform willWake debug) ⟨store, []⟩ fun _ t => t = w :=
    ⟨answer, w, h, rfl⟩
  rw [op.perform_eq, runs_map] at hreturns
  obtain ⟨reply, w', hcall, rfl⟩ := hreturns
  exact hafter.onlyCore honly hcore hcall

theorem Runtime.Run.onlyCore
    (hwillWake : ∀ old new, willWake old new = true → task old = task new)
    (run : Runtime.Run task willWake debug core s) : s.lock.store.OnlyCore core := by
  induction run with
  | init =>
      intro p c hp
      cases hp
  | step run step ih =>
      obtain ⟨history, hafter, -⟩ := run.tracked hwillWake
      cases step with
      | wake | schedule | adopt | yield => exact ih
      | start t isWrite range priority state hrunning haccepted h =>
          exact onlyCore_returned hafter ih rfl h
      | pollPending t isWrite state cx hrunning howner hcx h =>
          exact onlyCore_returned hafter ih rfl h
      | pollReady t isWrite state cx hrunning howner hcx h =>
          exact onlyCore_returned hafter ih rfl h
      | drop isWrite state h => exact onlyCore_returned hafter ih rfl h
      | tryLock isWrite range state haccepted h => exact onlyCore_returned hafter ih rfl h
      | unlockTry isWrite state h => exact onlyCore_returned hafter ih rfl h
      | @panicked op message w haccepted h =>
          have hpanics : Panics (op.perform willWake debug) ⟨_, []⟩ message (· = w) := ⟨w, h, rfl⟩
          rw [op.perform_eq, panics_map] at hpanics
          obtain ⟨w', hcall, rfl⟩ := hpanics
          obtain ⟨hstore, -⟩ :=
            hafter.panicked (fun hdebug => op.accepted_call.mpr (haccepted hdebug)) hcall
          show w'.store.OnlyCore core
          rw [hstore]
          exact ih

/-! ## Nobody is stranded -/

/-- The task has its turn, or will get it. -/
def Runtime.Busy (s : Runtime Index Priority Waker Task) (t : Task) : Prop :=
  s.ready t = true ∨ s.running t = true

omit [DecidableEq Task] in
/-- The lock of a future that a task awaits is pending, unless the task has its turn or will get
it. -/
theorem Runtime.Attended.pending (h : s.Attended task) (htracked : s.lock.Tracked task)
    (howner : s.owner p = some t) (hidle : ¬ s.Busy t) : ∃ w, s.lock.store.waiter p = some w := by
  obtain ⟨-, ⟨-, hrunning⟩ | ⟨-, waker, woken, hpoll, -, hready⟩⟩ := h p t howner
  · exact absurd (Or.inr hrunning) hidle
  · rcases htracked.polled hpoll with ⟨-, hpending⟩ | ⟨x, rfl, -⟩
    · exact hpending
    · exact absurd (Or.inl (hready (List.cons_ne_nil _ _))) hidle

/-- An executor that gives turns to none but the tasks that have been woken strands nobody.  A
future whose task has no turn and will get none waits, be it through others, for a lock that is
complete: that of a guard, or of a future whose task has its turn or will get it. -/
theorem Runtime.Run.none_stranded
    (hwillWake : ∀ old new, willWake old new = true → task old = task new)
    (run : Runtime.Run task willWake debug core s) {p : LockPtr} {t : Task}
    (howner : s.owner p = some t) (hidle : ¬ s.Busy t) :
    ∃ q, Relation.TransGen (s.lock.store.WaitsFor core) p q ∧ s.lock.store.Complete core q ∧
      ∀ t', s.owner q = some t' → s.Busy t' := by
  have htracked := run.tracked hwillWake
  have hattended := run.attended hwillWake
  obtain ⟨w, hw⟩ := hattended.pending htracked howner hidle
  obtain ⟨history, hafter, -⟩ := htracked
  obtain ⟨q, hchain, hcomplete⟩ := hafter.waits_for_complete (run.onlyCore hwillWake) hw
  refine ⟨q, hchain, hcomplete, fun t' howner' => ?_⟩
  by_contra hidle'
  obtain ⟨w', hw'⟩ := hattended.pending (run.tracked hwillWake) howner' hidle'
  rw [hcomplete.2] at hw'
  cases hw'

end Invariant

/-! ### A run -/

def Answer.isPending : Answer → Bool
  | .polled .pending => true
  | _ => false

/-- Somebody holds `0..10` for writing.  A task awaits `5..15` for reading, and has ended its
turn. -/
theorem none_stranded_reader : ∃ s : Runtime ℕ ℕ (ℕ × ℕ) ℕ,
    s.owner (lockPtr false (slot 2)) = some 1 ∧ ¬ s.Busy 1 ∧
    ∃ q, Relation.TransGen (s.lock.store.WaitsFor (slot 0)) (lockPtr false (slot 2)) q ∧
      s.lock.store.Complete (slot 0) q ∧ ∀ t', s.owner q = some t' → s.Busy t' := by
  set willWake : ℕ × ℕ → ℕ × ℕ → Bool := fun old new => decide (old = new) with hwillWake
  set write : Op ℕ ℕ (ℕ × ℕ) := .tryLock true (slot 0) ⟨0, 10⟩ (slot 1) with hwrite
  set read : Op ℕ ℕ (ℕ × ℕ) := .startLock false (slot 0) ⟨5, 15⟩ 0 (slot 2) with hread
  set poll : Op ℕ ℕ (ℕ × ℕ) := .pollLock false (slot 0) (slot 2) (1, 0) with hpoll
  have hend : ((returned (write.perform willWake true) ⟨Store.init, []⟩).bind fun x =>
      (returned (read.perform willWake true) ⟨x.2.store, []⟩).bind fun y =>
        (returned (poll.perform willWake true) ⟨y.2.store, []⟩).map fun z =>
          (wakers y.2.log, wakers z.2.log, z.1.isPending)) =
          some ([], [], true) := by decide +kernel
  obtain ⟨x, hx, hend⟩ := Option.bind_eq_some_iff.mp hend
  obtain ⟨y, hy, hend⟩ := Option.bind_eq_some_iff.mp hend
  obtain ⟨z, hz, hend⟩ := Option.map_eq_some_iff.mp hend
  obtain ⟨hwakers, hend⟩ := Prod.mk.inj hend
  obtain ⟨hwakers', hpending⟩ := Prod.mk.inj hend
  have hanswer : z.1 = .polled .pending := by
    rcases hz₁ : z.1 with _ | success | (_ | _)
    · rw [hz₁] at hpending
      cases hpending
    · rw [hz₁] at hpending
      cases hpending
    · rw [hz₁] at hpending
      cases hpending
    · rfl
  have hx := eq_ok_of_returned hx
  have hy := eq_ok_of_returned hy
  have hz := eq_ok_of_returned hz
  rw [hanswer] at hz
  have run₀ : Runtime.Run Prod.fst willWake true (slot 0)
      (Runtime.init : Runtime ℕ ℕ (ℕ × ℕ) ℕ) := .init
  have run₁ := run₀.step (.tryLock true ⟨0, 10⟩ (slot 1) nofun hx)
  have run₂ := run₁.step (.wake 1)
  have run₃ := run₂.step (.schedule 1 rfl rfl)
  have run₄ := run₃.step (.start 1 false ⟨5, 15⟩ 0 (slot 2) rfl nofun hy)
  have run₅ := run₄.step (.pollPending 1 false (slot 2) (1, 0) rfl rfl rfl hz)
  have hpolled : ∀ (polled : LockPtr → Bool) p,
      Function.update (fun _ => none) (lockPtr false (slot 2)) (some 1) p = some 1 →
      Function.update polled (lockPtr false (slot 2)) true p = true := by
    intro polled p hp
    by_cases hne : p = lockPtr false (slot 2)
    · rw [hne, Function.update_self]
    · rw [Function.update_of_ne hne] at hp
      cases hp
  have run₆ := run₅.step (.yield 1 (hpolled _))
  set s : Runtime ℕ ℕ (ℕ × ℕ) ℕ := _
  have hrun : Runtime.Run Prod.fst willWake true (slot 0) s := run₆
  have hready : s.ready 1 = false := by
    show ((false || (wakers y.2.log).any fun x => decide (x.2.1 = 1)) ||
      (wakers z.2.log).any fun x => decide (x.2.1 = 1)) = false
    rw [hwakers, hwakers']
    rfl
  have hidle : ¬ s.Busy 1 := by
    rintro (h | h)
    · rw [hready] at h
      cases h
    · cases h
  exact ⟨s, rfl, hidle, hrun.none_stranded
    (fun old new h => congrArg Prod.fst (of_decide_eq_true h)) rfl hidle⟩

end Interlock.Raw.Future
