import Interlock.Core.View

/-!
# Single calls

What a call does in any world that a run can reach: when it panics, what the lock operations decide
and acquire, and that locking and unlocking at once changes nothing.
-/

namespace Interlock.Core

open Memory RbTree

variable {Index Priority InProgress : Type} [LinearOrder Index] [LinearOrder Priority]

/-- A lock holds an index of the range and conflicts with `p`. -/
def Store.Conflicts (store : Store Index Priority InProgress) (core : Addr) (p : LockPtr)
    (range : Range Index) : Prop :=
  ∃ q i, conflicting p q ∧ store.Holds core q i ∧ range.start ≤ i ∧ i < range.stop

section Reachable
variable {debug : Bool} {misuse : Prop} {world : World Index Priority InProgress}
  {σ : System Index Priority InProgress} {tables : Tables Index Priority InProgress}
  {store : Store Index Priority InProgress} {core : Addr} {p : LockPtr} {range : Range Index}

theorem firstConflict_eq_none_iff (h : Models tables store) (hsound : (tables core).Sound True)
    (hrange : range.start < range.stop) :
    (tables core).firstConflict p range = none ↔ ¬ store.Conflicts core p range := by
  have hfirst := hsound.firstConflict_isFirst p range
  constructor
  · rintro hnone ⟨q, i, hconf, hholds, hstart, hstop⟩
    rw [hnone] at hfirst
    obtain ⟨l, hl, hi⟩ := h.holds_iff.mp hholds
    obtain ⟨j, -, hj⟩ := Lock.conflict_of_holds hi hstart hstop
    exact hfirst j ⟨q, l, hl, hconf, hj⟩
  · intro hfree
    cases hconflict : (tables core).firstConflict p range with
    | none => rfl
    | some i =>
        obtain ⟨q, l, hl, hconf, hholds⟩ := hsound.holder_of_firstConflict trivial hconflict
        obtain ⟨hstart, hstop⟩ := hsound.le_firstConflict hconflict
        refine absurd ⟨q, i, hconf, h.holds_iff.mpr ⟨l, hl, hholds⟩, hstart, ?_⟩ hfree
        rcases hstop with hstop | rfl
        · exact hstop
        · exact hrange

/-! ## Panics -/

/-- A lock call on a lock state that is set already, or a call on one that is not this core's. -/
def Call.Misuse (store : Store Index Priority InProgress) : Call Index Priority InProgress → Prop
  | .lock isWrite _ state _ _ _ => (store.parent (lockPtr isWrite state)).isSome
  | .tryLock isWrite core state range =>
      ¬ store.Conflicts core (tryLockPtr isWrite state) range ∧
        (store.parent (tryLockPtr isWrite state)).isSome
  | .unlock core p => store.parent p ≠ some core
  | .inspect isWrite core state _ => store.parent (lockPtr isWrite state) ≠ some core

theorem misuse_iff (h : Models tables store) (hgood : Good True tables)
    (call : Call Index Priority InProgress) (hcall : call.Accepted Nonempty) :
    call.Misuse store ↔ System.Misused tables call := by
  have hused : ∀ p, (store.parent p).isSome ↔ InUse tables p := by
    intro p
    rw [Option.isSome_iff_exists]
    exact exists_congr fun c => h.live_iff
  have hfree : ∀ core p, store.parent p ≠ some core ↔ (tables core).locks p = none := by
    intro core p
    rw [ne_eq, h.live_iff, ← Option.isSome_iff_exists, Option.not_isSome_iff_eq_none]
  cases call with
  | lock isWrite core state range priority inProgress => exact hused _
  | tryLock isWrite core state range =>
      exact and_congr (firstConflict_eq_none_iff h (hgood.quiet core).toSound hcall).symm (hused _)
  | unlock core p => exact hfree _ _
  | inspect isWrite core state write => exact hfree _ _

/-- A call fails if and only if it is a misuse; then it panics, and nothing has changed. -/
theorem World.Run.perform_error_iff (run : World.Run debug misuse Nonempty world)
    (call : Call Index Priority InProgress) (hcall : call.Accepted Nonempty) :
    (call.Misuse world.store → ∃ w, call.perform debug world =
      .error (.panic call.misuseMessage) w ∧ w.store = world.store) ∧
    (¬ call.Misuse world.store → ∃ reply w, call.perform debug world = .ok reply w) := by
  obtain ⟨σ, hσ, -, hgood⟩ := run.system
  rw [misuse_iff hσ.models hgood call hcall]
  constructor
  · intro hmisuse
    obtain ⟨w, hw, hstore, -⟩ := Call.panics admissible_of_nonempty False hσ hgood
      (fun _ => trivial) call hcall hmisuse
    exact ⟨w, hw, hstore⟩
  · intro hproper
    obtain ⟨reply, w, hw, -⟩ := Call.returns admissible_of_nonempty False hσ hgood
      (fun _ => trivial) call hcall hproper
    exact ⟨reply, w, hw⟩

/-- A call panics if and only if it is a misuse.  No call fails in another way, and one that panics
leaves the store as it was. -/
theorem World.Run.panics_iff_misuse (run : World.Run debug misuse Nonempty world)
    (call : Call Index Priority InProgress) (hcall : call.Accepted Nonempty) :
    ((∃ message w, call.perform debug world = .error (.panic message) w) ↔
      call.Misuse world.store) ∧
    ∀ fault w, call.perform debug world = .error fault w →
      fault = .panic call.misuseMessage ∧ w.store = world.store := by
  obtain ⟨hpanics, hreturns⟩ := run.perform_error_iff call hcall
  refine ⟨⟨?_, fun hmisuse => ?_⟩, ?_⟩
  · rintro ⟨message, w, hw⟩
    by_contra hproper
    obtain ⟨reply, w', hw'⟩ := hreturns hproper
    rw [hw] at hw'
    cases hw'
  · obtain ⟨w, hw, -⟩ := hpanics hmisuse
    exact ⟨_, w, hw⟩
  · intro fault w hw
    by_cases hmisuse : call.Misuse world.store
    · obtain ⟨w', hw', hstore⟩ := hpanics hmisuse
      rw [hw] at hw'
      cases hw'
      exact ⟨rfl, hstore⟩
    · obtain ⟨reply, w', hw'⟩ := hreturns hmisuse
      rw [hw] at hw'
      cases hw'

/-- The reader is locked once more. -/
theorem panics_iff_misuse_tour :
    ((∃ message w, Call.perform true (.lock false (slot 0) (slot 2) ⟨50, 60⟩ 0 0)
      (World.after true tour) = .error (.panic message) w) ↔
        Call.Misuse (World.after true tour).store (.lock false (slot 0) (slot 2) ⟨50, 60⟩ 0 0)) ∧
    ∀ fault w, Call.perform true (.lock false (slot 0) (slot 2) ⟨50, 60⟩ 0 0)
      (World.after true tour) = .error fault w →
      fault = .panic stillInUse ∧ w.store = (World.after true tour).store :=
  (tour_run True).panics_iff_misuse _ (by decide : 50 < 60)

/-- With debug assertions, a call with an empty range panics before it does anything. -/
theorem Call.rejects {call : Call Index Priority InProgress} (hempty : ¬ call.Accepted Nonempty)
    (world : World Index Priority InProgress) :
    Panics (call.perform true) world invalidRange (· = world) := by
  have hassert : ∀ range : Range Index, ¬ range.start < range.stop →
      Panics (debugAssert true (range.start < range.stop) invalidRange) world invalidRange
        (· = world) := by
    intro range hrange
    rw [decide_eq_false hrange]
    exact panics_throw.mpr rfl
  cases call with
  | lock isWrite core state range priority inProgress =>
      have hrange := hassert range hempty
      cases isWrite with
      | true => exact Panics.bind (Panics.bind hrange)
      | false => exact Panics.bind (Panics.bind hrange)
  | tryLock isWrite core state range =>
      have hrange := hassert range hempty
      cases isWrite with
      | true => exact Panics.bind (Panics.bind hrange)
      | false => exact Panics.bind (Panics.bind hrange)
  | unlock => exact absurd trivial hempty
  | inspect => exact absurd trivial hempty

/-! ## Locking with and without waiting -/

/-- `p` is locked for `range`, and nothing else has changed. -/
structure Store.Gains (before after : Store Index Priority InProgress) (core : Addr) (p : LockPtr)
    (range : Range Index) : Prop where
  live : after.parent p = some core
  region : after.region p = some range
  complete : after.waiter p = none
  others : ∀ q, q ≠ p → after.parent q = before.parent q ∧ after.region q = before.region q ∧
    after.waiter q = before.waiter q
  queue : ∀ c seq, after.Queue c seq ↔ before.Queue c seq

theorem ModelsWith.gains {store' : Store Index Priority InProgress} (h : Models tables store)
    (hgood : Good True tables) (hp : ¬ InUse tables p)
    (h' : Models (Function.update tables core ((tables core).add p range (some range.stop)))
      store') :
    store.Gains store' core p range := by
  set tables' := Function.update tables core ((tables core).add p range (some range.stop))
    with htables
  have hself : (tables' core).locks p = some ⟨range.start, range.stop, some range.stop⟩ := by
    rw [htables, Function.update_self, Table.add_locks, if_pos rfl]
  have hqueue : ∀ c, (tables' c).queue = (tables c).queue := by
    intro c
    by_cases hc : c = core
    · rw [htables, hc, Function.update_self, Table.add_queue]
    · rw [htables, Function.update_of_ne hc]
  refine ⟨h'.live_iff.mpr ⟨_, hself⟩, by rw [h'.region_eq hself]; rfl, ?_, fun q hne => ?_, ?_⟩
  · rw [h.waiter_congr h' hqueue]
    exact h.waiter_eq_none (hgood.not_queued hp)
  · obtain ⟨hparent, hregion⟩ := h.lock_congr (p := q) h' fun c => by
      by_cases hc : c = core
      · rw [htables, hc, Function.update_self, Table.add_locks, if_neg hne]
      · rw [htables, Function.update_of_ne hc]
    exact ⟨hparent, hregion, h.waiter_congr h' hqueue⟩
  · intro c seq
    rw [h'.queue_iff, h.queue_iff, hqueue]

/-- A lock call whose range has a conflict borrows what is in front of it. -/
theorem ModelsWith.lock_holds {store' : Store Index Priority InProgress} {priority : Priority}
    {inProgress : InProgress} {i j : Index} (hfirst : (tables core).firstConflict p range = some i)
    (h' : Models (Function.update tables core ((tables core).lock p range priority inProgress))
      store') : store'.Holds core p j ↔ range.start ≤ j ∧ j < i := by
  have hlock : (Function.update tables core ((tables core).lock p range priority inProgress)
      core).locks p = some ⟨range.start, range.stop, if i = range.start then none else some i⟩ := by
    rw [Function.update_self, Table.lock_of_some hfirst, Table.enqueue_locks, Table.add_locks,
      if_pos rfl]
  have hpos : Lock.pos ⟨range.start, range.stop, if i = range.start then none else some i⟩ = i := by
    by_cases hi : i = range.start
    · rw [if_pos hi, Lock.pos_none, hi]
    · rw [if_neg hi, Lock.pos_some]
  rw [h'.holds_iff]
  constructor
  · rintro ⟨l, hl, hj⟩
    obtain rfl := Option.some.inj (hlock.symm.trans hl)
    exact ⟨hj.1, hj.2.trans_eq hpos⟩
  · rintro ⟨hstart, hlt⟩
    exact ⟨_, hlock, hstart, hlt.trans_eq hpos.symm⟩

/-- `try_lock_*` succeeds if and only if no lock conflicts with the range, which is when `lock_*`
would complete.  Then both give the lock its range and change nothing else.  Otherwise `try_lock_*`
changes nothing at all, and `lock_*` borrows the range up to the first index that is blocked. -/
theorem World.Run.tryLock_agrees_with_lock (run : World.Run debug misuse Nonempty world)
    (isWrite : Bool) (core state state' : Addr) (range : Range Index)
    (hrange : range.start < range.stop)
    (htry : world.store.parent (tryLockPtr isWrite state) = none)
    (hlock : world.store.parent (lockPtr isWrite state') = none) :
    ∃ complete w, Call.perform debug (.tryLock isWrite core state range) world =
        .ok (.locked complete) w ∧
      (complete = true ↔ ¬ world.store.Conflicts core (tryLockPtr isWrite state) range) ∧
      (complete = true → world.store.Gains w.store core (tryLockPtr isWrite state) range) ∧
      (complete = false → w = world) ∧
      ∀ priority inProgress, ∃ w',
        Call.perform debug (.lock isWrite core state' range priority inProgress) world =
          .ok (.locked complete) w' ∧
        w'.log = (if complete then .lockComplete (lockPtr isWrite state')
          else .inProgress (lockPtr isWrite state') inProgress) :: world.log ∧
        (complete = true → world.store.Gains w'.store core (lockPtr isWrite state') range) ∧
        (complete = false → ∃ i, IsFirst (fun i => range.start ≤ i ∧ i < range.stop ∧
            world.store.BlockedAt core (lockPtr isWrite state') i) (some i) ∧
          ∀ j, w'.store.Holds core (lockPtr isWrite state') j ↔ range.start ≤ j ∧ j < i) := by
  obtain ⟨σ, hσ, -, hgood⟩ := run.system
  have hsound := (hgood.quiet core).toSound
  have hunused := hσ.models.not_inUse htry
  have hunused' := hσ.models.not_inUse hlock
  -- The two lock states have the same conflicts
  have hsame : (σ.tables core).firstConflict (lockPtr isWrite state') range =
      (σ.tables core).firstConflict (tryLockPtr isWrite state) range := by
    simp only [Table.firstConflict, conflicting, lockPtr_isWrite, tryLockPtr_isWrite]
  obtain ⟨reply, w, hrun, hw, rfl, hself⟩ :=
    tryLock_returns hσ hgood (fun _ => trivial) isWrite core state
      (admissible_of_nonempty _ range hrange) fun _ => hunused
  refine ⟨_, w, hrun, ?_, fun hcomplete => ?_, fun hcomplete => hself (congrArg _ hcomplete), ?_⟩
  · rw [Option.isNone_iff_eq_none]
    exact firstConflict_eq_none_iff hσ.models hsound hrange
  · have hmodels := hw.models
    rw [System.tryLock, Table.tryLock, Option.isNone_iff_eq_none.mp hcomplete] at hmodels
    exact hσ.models.gains hgood hunused hmodels
  intro priority inProgress
  obtain ⟨reply, w', hrun', hw', rfl, hlog⟩ := lock_returns hσ hgood (fun _ => trivial) isWrite core
    state' (admissible_of_nonempty _ range hrange) hunused' priority inProgress
  have hmodels : Models (Function.update σ.tables core ((σ.tables core).lock
      (lockPtr isWrite state') range priority inProgress)) w'.store := hw'.models
  rw [hsame] at hrun' hlog
  refine ⟨w', hrun', ?_, fun hcomplete => ?_, fun hcomplete => ?_⟩
  · rw [hlog]
    cases (σ.tables core).firstConflict (tryLockPtr isWrite state) range <;> rfl
  · rw [Table.lock_of_none (hsame.trans (Option.isNone_iff_eq_none.mp hcomplete))] at hmodels
    exact hσ.models.gains hgood hunused' hmodels
  · have hfirst := hsound.firstConflict_isFirst_not_free trivial hrange
      fun l (hl : (σ.tables core).locks (lockPtr isWrite state') = some l) =>
        absurd ⟨core, l, hl⟩ hunused'
    rw [hsame] at hfirst
    obtain ⟨i, hi⟩ := Option.ne_none_iff_exists'.mp
      (mt Option.isNone_iff_eq_none.mpr (by rw [hcomplete]; exact Bool.false_ne_true))
    rw [hi] at hfirst
    refine ⟨i, hfirst.congr fun j => ?_, fun j => hmodels.lock_holds (hsame.trans hi)⟩
    rw [hσ.models.blockedAt_iff]

/-- A writer meets the reader of `30..40`. -/
theorem tryLock_agrees_with_lock_tour : ∃ complete w,
    Call.perform true (.tryLock true (slot 0) (slot 5) ⟨20, 35⟩) (World.after true tour) =
      .ok (.locked complete) w ∧
    (complete = true ↔ ¬ (World.after true tour).store.Conflicts (slot 0)
      (tryLockPtr true (slot 5)) ⟨20, 35⟩) ∧
    (complete = true → (World.after true tour).store.Gains w.store (slot 0)
      (tryLockPtr true (slot 5)) ⟨20, 35⟩) ∧
    (complete = false → w = World.after true tour) ∧
    ∀ priority inProgress, ∃ w',
      Call.perform true (.lock true (slot 0) (slot 6) ⟨20, 35⟩ priority inProgress)
        (World.after true tour) = .ok (.locked complete) w' ∧
      w'.log = (if complete then .lockComplete (lockPtr true (slot 6))
        else .inProgress (lockPtr true (slot 6)) inProgress) :: (World.after true tour).log ∧
      (complete = true → (World.after true tour).store.Gains w'.store (slot 0)
        (lockPtr true (slot 6)) ⟨20, 35⟩) ∧
      (complete = false → ∃ i, IsFirst (fun i => 20 ≤ i ∧ i < 35 ∧
          (World.after true tour).store.BlockedAt (slot 0) (lockPtr true (slot 6)) i) (some i) ∧
        ∀ j, w'.store.Holds (slot 0) (lockPtr true (slot 6)) j ↔ 20 ≤ j ∧ j < i) :=
  (tour_run False).tryLock_agrees_with_lock true (slot 0) (slot 5) (slot 6) ⟨20, 35⟩
    (by decide : 20 < 35) rfl rfl

/-! ## Locking and unlocking at once -/

/-- The same locks are live, hold the same regions and wait in the same order. -/
structure Store.Same (before after : Store Index Priority InProgress) : Prop where
  parent : ∀ p, after.parent p = before.parent p
  region : ∀ p, after.region p = before.region p
  waiter : ∀ p, after.waiter p = before.waiter p
  queue : ∀ c seq, after.Queue c seq ↔ before.Queue c seq

theorem ModelsWith.same {store' : Store Index Priority InProgress} (h : Models tables store)
    (h' : Models tables store') : store.Same store' where
  parent p := (h.lock_congr h' fun _ => rfl).1
  region p := (h.lock_congr h' fun _ => rfl).2
  waiter p := h.waiter_congr h' fun _ => rfl
  queue c seq := by rw [h'.queue_iff, h.queue_iff]

/-- The unlock call after a lock operation that has added `p` to the table. -/
theorem unlock_restores (debug : Bool) {w : World Index Priority InProgress}
    {σ' : System Index Priority InProgress}
    {held : Option Index} (hσ : Simulates world σ) (hgood : Good True σ.tables)
    (hp : ¬ InUse σ.tables p) (hw : Simulates w σ') (hgood' : Good True σ'.tables)
    (hothers : Function.update σ'.tables core (σ.tables core) = σ.tables)
    (hlog : completions σ'.log = completions σ.log)
    (hdequeue : (σ'.tables core).dequeue p = (σ.tables core).add p range held) :
    ∃ w', Call.perform debug (.unlock core p) w =
        .ok (.unlocked ((σ'.tables core).waiting p)) w' ∧
      world.store.Same w'.store ∧ completions w'.log = completions world.log := by
  have hl : (σ'.tables core).locks p = some ⟨range.start, range.stop, held⟩ := by
    rw [← Table.dequeue_locks, hdequeue, Table.add_locks, if_pos rfl]
  obtain ⟨reply, w', hrun, hw', rfl⟩ := unlock_returns hw hgood' (fun _ => trivial) core p hl
  obtain ⟨htables, hcompletions⟩ := System.unlock_neutral hgood' hl (hgood.quiet core)
    (locks_eq_none_of_not_inUse hp core) hdequeue
  have hmodels := hw'.models
  rw [htables, hothers] at hmodels
  refine ⟨w', hrun, hσ.models.same hmodels, ?_⟩
  rw [hw'.log.completions, hcompletions, hlog, hσ.log.completions]

/-- To lock and unlock at once changes nothing and completes no other lock, whether the lock was
complete in between or had to wait. -/
theorem World.Run.lock_unlock_neutral (run : World.Run debug misuse Nonempty world) (isWrite : Bool)
    (core state : Addr) (range : Range Index) (hrange : range.start < range.stop) :
    (world.store.parent (lockPtr isWrite state) = none → ∀ priority inProgress, ∃ complete w w',
      Call.perform debug (.lock isWrite core state range priority inProgress) world =
        .ok (.locked complete) w ∧
      Call.perform debug (.unlock core (lockPtr isWrite state)) w =
        .ok (.unlocked (if complete then none else some inProgress)) w' ∧
      world.store.Same w'.store ∧ completions w'.log = completions world.log) ∧
    (world.store.parent (tryLockPtr isWrite state) = none → ∃ complete w,
      Call.perform debug (.tryLock isWrite core state range) world = .ok (.locked complete) w ∧
      (complete = false → w = world) ∧
      (complete = true → ∃ w',
        Call.perform debug (.unlock core (tryLockPtr isWrite state)) w = .ok (.unlocked none) w' ∧
        world.store.Same w'.store ∧ completions w'.log = completions world.log)) := by
  obtain ⟨σ, hσ, -, hgood⟩ := run.system
  have hsound := (hgood.quiet core).toSound
  have hothers : ∀ s', Function.update (Function.update σ.tables core s') core (σ.tables core) =
      σ.tables := fun s' => by rw [Function.update_idem, Function.update_eq_self]
  constructor
  · intro hfree priority inProgress
    have hunused := hσ.models.not_inUse hfree
    have hadmissible : Table.Admissible True (lockPtr isWrite state) range :=
      admissible_of_nonempty _ range hrange
    obtain ⟨reply, w, hrun, hw, rfl, -⟩ := lock_returns hσ hgood (fun _ => trivial)
      isWrite core state
      hadmissible hunused priority inProgress
    have hstep : System.Step False Nonempty σ _ :=
      .lock isWrite core state priority inProgress hrange hunused
    have hgood' : Good True _ := hstep.good admissible_of_nonempty hgood
    have htable : (σ.lock core (lockPtr isWrite state) range priority inProgress).tables core =
        (σ.tables core).lock (lockPtr isWrite state) range priority inProgress :=
      Function.update_self _ _ _
    obtain ⟨held, hdequeue⟩ := Table.lock_dequeue (hgood.not_queued hunused core) range
      priority inProgress
    obtain ⟨w', hrun', hsame, hlog⟩ := unlock_restores debug hσ hgood hunused hw hgood'
      (hothers _) (by cases h : (σ.tables core).firstConflict (lockPtr isWrite state) range <;>
        simp [System.lock, System.lockAt, h, lockEvent, completions]) (by rw [htable, hdequeue])
    refine ⟨_, w, w', hrun, ?_, hsame, hlog⟩
    rw [hrun', htable, hsound.waiting_lock (locks_eq_none_of_not_inUse hunused core)
      (lockPtr_kind isWrite state) hadmissible priority inProgress]
    cases (σ.tables core).firstConflict (lockPtr isWrite state) range <;> rfl
  · intro hfree
    have hunused := hσ.models.not_inUse hfree
    obtain ⟨reply, w, hrun, hw, rfl, hself⟩ := tryLock_returns hσ hgood (fun _ => trivial) isWrite
      core state (admissible_of_nonempty _ range hrange) fun _ => hunused
    refine ⟨_, w, hrun, fun hcomplete => hself (congrArg _ hcomplete), fun hcomplete => ?_⟩
    have hnone := Option.isNone_iff_eq_none.mp hcomplete
    have hstep : System.Step False Nonempty σ _ :=
      .tryLock isWrite core state hrange fun _ => hunused
    have hgood' : Good True _ := hstep.good admissible_of_nonempty hgood
    have htable : (σ.tryLock core (tryLockPtr isWrite state) range).tables core =
        (σ.tables core).add (tryLockPtr isWrite state) range (some range.stop) := by
      rw [System.tryLock, Table.tryLock, hnone]
      exact Function.update_self _ _ _
    have hqueue := hgood.not_queued hunused core
    obtain ⟨w', hrun', hsame, hlog⟩ := unlock_restores debug hσ hgood hunused hw hgood'
      (hothers _) rfl (by rw [htable]; exact Table.dequeue_self hqueue)
    have hwaiting : ((σ.tables core).add (tryLockPtr isWrite state) range (some range.stop)).waiting
        (tryLockPtr isWrite state) = none := Table.waiting_eq_none hqueue
    refine ⟨w', ?_, hsame, hlog⟩
    rw [hrun', htable, hwaiting]

theorem lock_unlock_neutral_tour :
    (∀ priority inProgress, ∃ complete w w',
        Call.perform true (.lock true (slot 0) (slot 5) ⟨3, 35⟩ priority inProgress)
          (World.after true tour) = .ok (.locked complete) w ∧
        Call.perform true (.unlock (slot 0) (lockPtr true (slot 5))) w =
          .ok (.unlocked (if complete then none else some inProgress)) w' ∧
        (World.after true tour).store.Same w'.store ∧
        completions w'.log = completions (World.after true tour).log) ∧
    (∃ complete w,
      Call.perform true (.tryLock true (slot 0) (slot 5) ⟨3, 35⟩) (World.after true tour) =
        .ok (.locked complete) w ∧
      (complete = false → w = World.after true tour) ∧
      (complete = true → ∃ w',
        Call.perform true (.unlock (slot 0) (tryLockPtr true (slot 5))) w =
          .ok (.unlocked none) w' ∧
        (World.after true tour).store.Same w'.store ∧
        completions w'.log = completions (World.after true tour).log)) :=
  have hneutral := (tour_run False).lock_unlock_neutral true (slot 0) (slot 5) ⟨3, 35⟩
    (by decide : 3 < 35)
  ⟨hneutral.1 rfl, hneutral.2 rfl⟩

end Reachable

end Interlock.Core
