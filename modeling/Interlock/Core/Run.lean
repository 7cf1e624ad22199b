import Interlock.Core.Unlock

/-!
# Runs in memory

A `World.Step` is a call of an operation on any of the cores, which returns or panics.  A panic is
caught, and the run goes on.  A call passes a range that `accepts` allows.

Every run in memory is one of tables: a call that is no misuse returns, and does what it does to
tables, and a misuse panics.  In particular no assertion fails.
-/

namespace Interlock.Core

open Memory RbTree

variable {Index Priority InProgress : Type} [LinearOrder Index] [LinearOrder Priority]

/-- The range that is passed, if there is one, is acceptable. -/
def Call.Accepted (accepts : LockPtr → Range Index → Prop) : Call Index Priority InProgress → Prop
  | .lock isWrite _ state range _ _ => accepts (lockPtr isWrite state) range
  | .tryLock isWrite _ state range => accepts (tryLockPtr isWrite state) range
  | .unlock .. | .inspect .. => True

/-- What a call says if it is a misuse. -/
def Call.misuseMessage : Call Index Priority InProgress → String
  | .lock .. | .tryLock .. => stillInUse
  | .unlock .. | .inspect .. => incorrectOrigin

/-- The world that a client has in front of it after `event`. -/
def World.note (world : World Index Priority InProgress)
    (event : Event Index Priority InProgress (Store Index Priority InProgress)) :
    World Index Priority InProgress := ⟨world.store, event :: world.log⟩

/-- A call, as the client sees it. -/
inductive World.Step (debug : Bool) (misuse : Prop) (accepts : LockPtr → Range Index → Prop)
    (world : World Index Priority InProgress) : World Index Priority InProgress → Prop where
  | returned (call : Call Index Priority InProgress) {reply : Reply InProgress}
      {world' : World Index Priority InProgress} (haccepted : call.Accepted accepts)
      (h : call.perform debug world = .ok reply world') :
      Step debug misuse accepts world (world'.note (.returned call reply world'.store))
  | panicked (hmisuse : misuse) (call : Call Index Priority InProgress) {message : String}
      {world' : World Index Priority InProgress} (haccepted : call.Accepted accepts)
      (h : call.perform debug world = .error (.panic message) world') :
      Step debug misuse accepts world (world'.note (.panicked call))

def World.init : World Index Priority InProgress := ⟨.init, []⟩

/-- The worlds that can be reached.  With `misuse` there are calls that panic. -/
inductive World.Run (debug : Bool) (misuse : Prop) (accepts : LockPtr → Range Index → Prop) :
    World Index Priority InProgress → Prop where
  | init : Run debug misuse accepts .init
  | step {world world'} (run : Run debug misuse accepts world)
      (step : World.Step debug misuse accepts world world') : Run debug misuse accepts world'

/-! ### Given calls -/

/-- The world after some calls, if all of them return. -/
def World.performs (debug : Bool) : World Index Priority InProgress →
    List (Call Index Priority InProgress) → Option (World Index Priority InProgress)
  | world, [] => some world
  | world, call :: calls =>
      match call.perform debug world with
      | .ok reply world' => performs debug (world'.note (.returned call reply world'.store)) calls
      | .error _ _ => none

/-- The world after some calls in a row. -/
def World.after (debug : Bool) (calls : List (Call Index Priority InProgress)) :
    World Index Priority InProgress := (World.init.performs debug calls).getD .init

theorem World.Run.performs {debug : Bool} {misuse : Prop} {accepts : LockPtr → Range Index → Prop}
    {calls : List (Call Index Priority InProgress)} {world world' : World Index Priority InProgress}
    (run : World.Run debug misuse accepts world) (hcalls : ∀ call ∈ calls, call.Accepted accepts)
    (h : world.performs debug calls = some world') : World.Run debug misuse accepts world' := by
  induction calls generalizing world with
  | nil =>
      obtain rfl := Option.some.inj h
      exact run
  | cons call calls ih =>
      rw [World.performs] at h
      split at h
      · next reply w hperform =>
          exact ih (run.step (.returned call (hcalls call (by simp)) hperform))
            (fun c hc => hcalls c (List.mem_cons_of_mem _ hc)) h
      · cases h

theorem World.run_after {debug : Bool} {misuse : Prop} {accepts : LockPtr → Range Index → Prop}
    {calls : List (Call Index Priority InProgress)}
    (hcalls : ∀ call ∈ calls, call.Accepted accepts)
    (h : (World.init.performs debug calls).isSome) :
    World.Run debug misuse accepts (World.after debug calls) := by
  obtain ⟨world, hworld⟩ := Option.isSome_iff_exists.mp h
  rw [World.after, hworld]
  exact World.Run.init.performs hcalls hworld

section Calls
variable {debug : Bool} {misuse strict : Prop} {accepts : LockPtr → Range Index → Prop}
  {world world' : World Index Priority InProgress} {σ σ' : System Index Priority InProgress}
  {core state : Addr} {p : LockPtr} {range : Range Index} {priority : Priority}
  {inProgress : InProgress}

/-! ## Calls that return -/

section Returns
variable (h : Simulates world σ) (hgood : Good strict σ.tables) (hdebug : debug = true → strict)
include h hgood hdebug

theorem lock_returns (isWrite : Bool) (core state : Addr)
    (hrange : Table.Admissible strict (lockPtr isWrite state) range)
    (hfresh : ¬ InUse σ.tables (lockPtr isWrite state)) (priority : Priority)
    (inProgress : InProgress) :
    Runs (Call.perform debug (.lock isWrite core state range priority inProgress)) world
      fun reply w => Simulates w (σ.lock core (lockPtr isWrite state) range priority inProgress) ∧
        reply = .locked ((σ.tables core).firstConflict (lockPtr isWrite state) range).isNone ∧
        w.log = lockEvent ((σ.tables core).firstConflict (lockPtr isWrite state) range)
          (lockPtr isWrite state) inProgress :: world.log := by
  have hnonempty : debug = true → range.start < range.stop := fun hd =>
    hrange.2 (Or.inl (hdebug hd))
  have hreply : ∀ conflict : Option Index, conflict.elim true (fun _ => false) =
      conflict.isNone := by
    intro conflict
    cases conflict <;> rfl
  cases isWrite with
  | true =>
      simp only [Call.perform, if_true, lockWrite, runs_bind]
      refine (lockWith_spec h hgood (lockWrite_finds hdebug (hrange.2 (Or.inr rfl)) rfl)
        (borrowWrite_borrows rfl) hnonempty hfresh priority _).mono ?_
      rintro _ w ⟨hw, rfl, hlog⟩
      exact runs_pure.mpr ⟨hw, congrArg Reply.locked (hreply _), hlog⟩
  | false =>
      simp only [Call.perform, Bool.false_eq_true, if_false, lockRead, runs_bind]
      refine (lockWith_spec h hgood (lockRead_finds rfl) (borrowRead_borrows rfl) hnonempty hfresh
        priority _).mono ?_
      rintro _ w ⟨hw, rfl, hlog⟩
      exact runs_pure.mpr ⟨hw, congrArg Reply.locked (hreply _), hlog⟩

theorem tryLock_returns (isWrite : Bool) (core state : Addr)
    (hrange : Table.Admissible strict (tryLockPtr isWrite state) range)
    (hfresh : (σ.tables core).firstConflict (tryLockPtr isWrite state) range = none →
      ¬ InUse σ.tables (tryLockPtr isWrite state)) :
    Runs (Call.perform debug (.tryLock isWrite core state range)) world fun reply w =>
      Simulates w (σ.tryLock core (tryLockPtr isWrite state) range) ∧
        reply = .locked ((σ.tables core).firstConflict (tryLockPtr isWrite state) range).isNone ∧
          (reply = .locked false → w = world) := by
  have hnonempty : debug = true → range.start < range.stop := fun hd =>
    hrange.2 (Or.inl (hdebug hd))
  cases isWrite with
  | true =>
      simp only [Call.perform, if_true, tryLockWrite, runs_bind]
      refine (tryLockWith_spec h hgood (tryLockWrite_findsAny hdebug (hrange.2 (Or.inr rfl)) rfl)
        (borrowWrite_borrows rfl) hnonempty hfresh).mono ?_
      rintro _ w ⟨hw, rfl, hself⟩
      exact runs_pure.mpr ⟨hw, rfl, fun hreply => hself (Reply.locked.inj hreply)⟩
  | false =>
      simp only [Call.perform, Bool.false_eq_true, if_false, tryLockRead, runs_bind]
      refine (tryLockWith_spec h hgood (tryLockRead_findsAny rfl) (borrowRead_borrows rfl) hnonempty
        hfresh).mono ?_
      rintro _ w ⟨hw, rfl, hself⟩
      exact runs_pure.mpr ⟨hw, rfl, fun hreply => hself (Reply.locked.inj hreply)⟩

theorem unlock_returns {l : Lock Index} (core : Addr) (p : LockPtr)
    (hl : (σ.tables core).locks p = some l) :
    Runs (Call.perform debug (.unlock core p)) world fun reply w =>
      Simulates w (σ.unlock core p) ∧ reply = .unlocked ((σ.tables core).waiting p) := by
  obtain ⟨kind, state⟩ := p
  cases kind with
  | read =>
      simp only [Call.perform, unlockRead, runs_bind]
      refine (unlockWith_spec hdebug (fun _ _ => unlockReadInner_spec rfl hdebug)
        h hgood hl).mono ?_
      rintro _ w ⟨hw, rfl⟩
      exact runs_pure.mpr ⟨hw, rfl⟩
  | write =>
      simp only [Call.perform, unlockWrite, runs_bind]
      refine (unlockWith_spec hdebug (fun _ _ => unlockWriteInner_spec rfl hdebug)
        h hgood hl).mono ?_
      rintro _ w ⟨hw, rfl⟩
      exact runs_pure.mpr ⟨hw, rfl⟩
  | tryRead =>
      simp only [Call.perform, unlockTryRead, runs_bind]
      refine (unlockTryWith_spec hdebug (fun _ _ => unlockReadInner_spec rfl hdebug) h hgood hl
        (by simp)).mono ?_
      rintro _ w ⟨hw, hnone⟩
      exact runs_pure.mpr ⟨hw, by rw [hnone]⟩
  | tryWrite =>
      simp only [Call.perform, unlockTryWrite, runs_bind]
      refine (unlockTryWith_spec hdebug (fun _ _ => unlockWriteInner_spec rfl hdebug) h hgood hl
        (by simp)).mono ?_
      rintro _ w ⟨hw, hnone⟩
      exact runs_pure.mpr ⟨hw, by rw [hnone]⟩

end Returns

theorem inspect_returns {stray : Stray} (h : SimulatesWith stray world σ)
    (hcoherent : Coherent σ.tables) {l : Lock Index} (isWrite : Bool) (core state : Addr)
    (write : InProgress → InProgress)
    (hl : (σ.tables core).locks (lockPtr isWrite state) = some l) :
    Runs (Call.perform debug (.inspect isWrite core state write)) world fun reply w =>
      SimulatesWith stray w (σ.write core (lockPtr isWrite state) write) ∧ reply =
        .inspected (((σ.tables core).waiting (lockPtr isWrite state)).elim .complete
          .inProgress) := by
  have hinspect :
      (if isWrite = true then inspectWriteMut core state else inspectReadMut core state :
        CoreM Index Priority InProgress _) = inspectWith core (lockPtr isWrite state) := by
    cases isWrite <;> rfl
  simp only [Call.perform, runs_bind]
  rw [hinspect]
  refine (inspectWith_spec h hcoherent hl).mono ?_
  rintro _ w ⟨rfl, rfl⟩
  by_cases hp : lockPtr isWrite state ∈ (σ.tables core).queue.map Prod.fst
  · obtain ⟨x, hx, hxp⟩ := List.mem_map.mp hp
    have hlinked := (hcoherent.idle core).toWellLinked
    rw [← hxp, hlinked.waiting_eq_some hx]
    simp only [Option.elim_some]
    refine (writeInProgress_spec h hlinked hx write).mono fun _ _ hw => ?_
    exact runs_pure.mpr ⟨hw, rfl⟩
  · have hself : (σ.tables core).write (lockPtr isWrite state) write = σ.tables core :=
      Table.write_self hp
    rw [Table.waiting_eq_none hp, System.write, hself, System.put_self]
    simpa using h

/-! ## Calls that panic -/

omit [LinearOrder Index] [LinearOrder Priority] in
theorem claim_panics (hp : (world.store.parent p).isSome) :
    Panics (claim core p) world stillInUse (· = world) := by
  have hstore : Runs getStore world fun store w => store = world.store ∧ w = world := by simp
  refine hstore.panics fun store w hw => ?_
  rw [hw.1, hw.2, if_pos hp]
  exact Panics.bind (panics_throw.mpr rfl)

omit [LinearOrder Index] [LinearOrder Priority] in
theorem checkParent_panics (world : World Index Priority InProgress)
    (hp : world.store.parent p ≠ some core) :
    Panics (checkParent core p) world incorrectOrigin (· = world) := by
  have hstore : Runs getStore world fun store w => store = world.store ∧ w = world := by simp
  refine hstore.panics fun store w hw => ?_
  rw [hw.1, hw.2, if_pos hp]
  exact panics_throw.mpr rfl

/-- A lock state that is not in the table of a core does not point to it. -/
theorem ModelsWith.parent_ne (h : Models σ.tables world.store)
    (hp : (σ.tables core).locks p = none) : world.store.parent p ≠ some core := by
  intro heq
  obtain ⟨l, hl⟩ := (h.parents.tabled p core rfl).mp heq
  rw [hp] at hl
  cases hl

theorem ModelsWith.parent_isSome {stray : Stray} (h : ModelsWith stray σ.tables world.store)
    (hp : InUse σ.tables p) : (world.store.parent p).isSome := by
  obtain ⟨c, l, hl⟩ := hp
  rw [h.parent_eq hl]
  rfl

/-- A lock operation on a lock state in use has called its callback before it panics. -/
theorem lockWith_panics_at {Output : Type} {found : Option Index → Prop}
    {conflict : CoreM Index Priority InProgress (Option Index)}
    {borrow : Range Index → CoreM Index Priority InProgress Unit}
    (hconflict : Runs conflict world fun r w => w = world ∧ found r)
    (hdebug : debug = true → range.start < range.stop) (hp : (world.store.parent p).isSome)
    (priority : Priority) (callback : LockCallback InProgress Output) :
    Panics (lockWith debug core conflict borrow p range priority callback) world stillInUse
      fun w => ∃ r, found r ∧ w = world.note (lockEvent r p callback.inProgress.2) := by
  obtain ⟨store, log⟩ := world
  have hassert : Runs (debugAssert debug (range.start < range.stop) invalidRange)
      (⟨store, log⟩ : World Index Priority InProgress) fun _ w => w = ⟨store, log⟩ := by
    rw [runs_debugAssert]
    exact ⟨fun hd => decide_eq_true (hdebug hd), rfl⟩
  refine hassert.panics ?_
  rintro _ _ rfl
  refine Runs.panics (?_ : Runs _ _ fun _ w => ∃ r, found r ∧
    w = ⟨store, lockEvent r p callback.inProgress.2 :: log⟩) ?_
  · rw [runs_bind]
    refine hconflict.mono ?_
    rintro r _ ⟨rfl, hfound⟩
    cases r with
    | none =>
        rw [runs_bind, runs_record, runs_pure]
        exact ⟨none, hfound, rfl⟩
    | some i =>
        simp only [runs_bind, runs_record, runs_pure]
        exact ⟨some i, hfound, rfl⟩
  · rintro _ _ ⟨r, hfound, rfl⟩
    have hclaim : Panics (claim core p) (⟨store, lockEvent r p callback.inProgress.2 :: log⟩ :
        World Index Priority InProgress) stillInUse (· = ⟨store, _⟩) := claim_panics hp
    refine Panics.bind (hclaim.mono ?_)
    rintro _ rfl
    exact ⟨r, hfound, rfl⟩

omit [LinearOrder Priority] in
theorem tryLockWith_panics_at {conflict : CoreM Index Priority InProgress Bool}
    {borrow : Range Index → CoreM Index Priority InProgress Unit}
    (hconflict : Runs conflict world fun r w => w = world ∧ r = false)
    (hdebug : debug = true → range.start < range.stop) (hp : (world.store.parent p).isSome) :
    Panics (tryLockWith debug core conflict borrow p range) world stillInUse (· = world) := by
  obtain ⟨store, log⟩ := world
  have hassert : Runs (debugAssert debug (range.start < range.stop) invalidRange)
      (⟨store, log⟩ : World Index Priority InProgress) fun _ w => w = ⟨store, log⟩ := by
    rw [runs_debugAssert]
    exact ⟨fun hd => decide_eq_true (hdebug hd), rfl⟩
  refine hassert.panics ?_
  rintro _ _ rfl
  refine hconflict.panics ?_
  rintro _ _ ⟨rfl, rfl⟩
  rw [if_neg Bool.false_ne_true]
  exact Panics.bind (claim_panics hp)

theorem lockWith_panics {Output : Type} (h : Simulates world σ) (hgood : Good strict σ.tables)
    {conflict : CoreM Index Priority InProgress (Option Index)}
    {borrow : Range Index → CoreM Index Priority InProgress Unit}
    (hconflict : Finds core p range strict conflict)
    (hdebug : debug = true → range.start < range.stop) (hp : InUse σ.tables p)
    (priority : Priority) (callback : LockCallback InProgress Output) :
    Panics (lockWith debug core conflict borrow p range priority callback) world stillInUse
      (· = world.note
      (lockEvent ((σ.tables core).firstConflict p range) p callback.inProgress.2)) := by
  have hsearch := hconflict _ _ _ world.log h.models (hgood.quiet core).toSound
  refine (lockWith_panics_at hsearch hdebug (h.models.parent_isSome hp) priority callback).mono ?_
  rintro _ ⟨r, rfl, rfl⟩
  rfl

theorem tryLockWith_panics (h : Simulates world σ) (hgood : Good strict σ.tables)
    {conflict : CoreM Index Priority InProgress Bool}
    {borrow : Range Index → CoreM Index Priority InProgress Unit}
    (hconflict : FindsAny core p range strict conflict)
    (hdebug : debug = true → range.start < range.stop)
    (hnone : (σ.tables core).firstConflict p range = none) (hp : InUse σ.tables p) :
    Panics (tryLockWith debug core conflict borrow p range) world stillInUse (· = world) := by
  have hsearch := hconflict _ _ _ world.log h.models (hgood.quiet core).toSound
  rw [hnone, Option.isSome_none] at hsearch
  exact tryLockWith_panics_at hsearch hdebug (h.models.parent_isSome hp)

section Panics
variable (h : Simulates world σ) (hgood : Good strict σ.tables) (hdebug : debug = true → strict)
include h hgood hdebug

theorem lock_panics (isWrite : Bool) (core state : Addr)
    (hrange : Table.Admissible strict (lockPtr isWrite state) range)
    (hused : InUse σ.tables (lockPtr isWrite state)) (priority : Priority)
    (inProgress : InProgress) :
    Panics (Call.perform debug (.lock isWrite core state range priority inProgress)) world
      stillInUse (· = world.note
        (lockEvent ((σ.tables core).firstConflict (lockPtr isWrite state) range)
        (lockPtr isWrite state) inProgress)) := by
  have hnonempty : debug = true → range.start < range.stop := fun hd =>
    hrange.2 (Or.inl (hdebug hd))
  cases isWrite with
  | true =>
      exact Panics.bind (lockWith_panics h hgood
        (lockWrite_finds hdebug (hrange.2 (Or.inr rfl)) rfl) hnonempty hused priority
        ⟨(false, inProgress), true⟩)
  | false =>
      exact Panics.bind (lockWith_panics h hgood (lockRead_finds rfl) hnonempty hused priority
        ⟨(false, inProgress), true⟩)

theorem tryLock_panics (isWrite : Bool) (core state : Addr)
    (hrange : Table.Admissible strict (tryLockPtr isWrite state) range)
    (hnone : (σ.tables core).firstConflict (tryLockPtr isWrite state) range = none)
    (hused : InUse σ.tables (tryLockPtr isWrite state)) :
    Panics (Call.perform debug (.tryLock isWrite core state range)) world stillInUse
      (· = world) := by
  have hnonempty : debug = true → range.start < range.stop := fun hd =>
    hrange.2 (Or.inl (hdebug hd))
  cases isWrite with
  | true =>
      exact Panics.bind (tryLockWith_panics h hgood
        (tryLockWrite_findsAny hdebug (hrange.2 (Or.inr rfl)) rfl) hnonempty hnone hused)
  | false =>
      exact Panics.bind (tryLockWith_panics h hgood (tryLockRead_findsAny rfl) hnonempty hnone
        hused)

end Panics

theorem unlock_panics (core : Addr) (p : LockPtr) (hp : world.store.parent p ≠ some core) :
    Panics (Call.perform debug (.unlock core p)) world incorrectOrigin (· = world) := by
  have hcheck := checkParent_panics world hp
  obtain ⟨kind, state⟩ := p
  cases kind <;> exact Panics.bind (Panics.bind hcheck)

theorem inspect_panics (isWrite : Bool) (core state : Addr) (write : InProgress → InProgress)
    (hp : world.store.parent (lockPtr isWrite state) ≠ some core) :
    Panics (Call.perform debug (.inspect isWrite core state write)) world incorrectOrigin
      (· = world) := by
  have hcheck := checkParent_panics world hp
  cases isWrite <;> exact Panics.bind (Panics.bind hcheck)

/-! ## Steps -/

section Steps
variable (haccepts : ∀ p range, accepts p range → Table.Admissible strict p range)
include haccepts

/-- A call that is no misuse returns. -/
theorem Call.returns (misuse : Prop) (h : Simulates world σ) (hgood : Good strict σ.tables)
    (hdebug : debug = true → strict) (call : Call Index Priority InProgress)
    (haccepted : call.Accepted accepts) (hproper : ¬ System.Misused σ.tables call) :
    Runs (call.perform debug) world fun reply w => ∃ σ',
      Simulates (w.note (.returned call reply w.store)) σ' ∧ System.Step misuse accepts σ σ' := by
  cases call with
  | lock isWrite core state range priority inProgress =>
      refine (lock_returns h hgood hdebug isWrite core state (haccepts _ _ haccepted) hproper
        priority inProgress).mono ?_
      rintro _ w ⟨hw, rfl, -⟩
      exact ⟨_, hw.note (.returned _ _ hw.models), .lock isWrite core state priority inProgress
        haccepted hproper⟩
  | tryLock isWrite core state range =>
      have hfresh := not_and.mp hproper
      refine (tryLock_returns h hgood hdebug isWrite core state (haccepts _ _ haccepted)
        hfresh).mono ?_
      rintro _ w ⟨hw, rfl, -⟩
      exact ⟨_, hw.note (.returned _ _ hw.models), .tryLock isWrite core state haccepted hfresh⟩
  | unlock core p =>
      obtain ⟨l, hl⟩ := Option.ne_none_iff_exists'.mp hproper
      refine (unlock_returns h hgood hdebug core p hl).mono ?_
      rintro _ w ⟨hw, rfl⟩
      exact ⟨_, hw.note (.returned _ _ hw.models), .unlock core p hl⟩
  | inspect isWrite core state write =>
      obtain ⟨l, hl⟩ := Option.ne_none_iff_exists'.mp hproper
      refine (inspect_returns h hgood.coherent isWrite core state write hl).mono ?_
      rintro _ w ⟨hw, rfl⟩
      exact ⟨_, hw.note (.returned _ _ hw.models), .inspect isWrite core state write hl⟩

/-- A misuse panics, and leaves the store as it is. -/
theorem Call.panics (misuse : Prop) (h : Simulates world σ) (hgood : Good strict σ.tables)
    (hdebug : debug = true → strict) (call : Call Index Priority InProgress)
    (haccepted : call.Accepted accepts) (hmisused : System.Misused σ.tables call) :
    Panics (call.perform debug) world call.misuseMessage fun w => w.store = world.store ∧
      (misuse → ∃ σ', Simulates (w.note (.panicked call)) σ' ∧ System.Step misuse
        accepts σ σ') := by
  cases call with
  | lock isWrite core state range priority inProgress =>
      refine (lock_panics h hgood hdebug isWrite core state (haccepts _ _ haccepted) hmisused
        priority inProgress).mono ?_
      rintro w rfl
      refine ⟨rfl, fun hmisuse => ⟨_, ?_, .lockPanic hmisuse isWrite core state range priority
        inProgress hmisused⟩⟩
      refine ⟨h.models, List.Forall₂.cons (.panicked _) (List.Forall₂.cons ?_ h.log)⟩
      unfold lockEvent
      split
      · exact .inProgress _ _
      · exact .lockComplete _
  | tryLock isWrite core state range =>
      refine (tryLock_panics h hgood hdebug isWrite core state (haccepts _ _ haccepted) hmisused.1
        hmisused.2).mono ?_
      rintro w rfl
      exact ⟨rfl, fun hmisuse => ⟨_, h.note (.panicked _), .panic hmisuse _ hmisused⟩⟩
  | unlock core p =>
      refine (unlock_panics core p (h.models.parent_ne hmisused)).mono ?_
      rintro w rfl
      exact ⟨rfl, fun hmisuse => ⟨_, h.note (.panicked _), .panic hmisuse _ hmisused⟩⟩
  | inspect isWrite core state write =>
      refine (inspect_panics isWrite core state write (h.models.parent_ne hmisused)).mono ?_
      rintro w rfl
      exact ⟨rfl, fun hmisuse => ⟨_, h.note (.panicked _), .panic hmisuse _ hmisused⟩⟩

theorem World.Step.simulates (h : Simulates world σ) (hgood : Good strict σ.tables)
    (hdebug : debug = true → strict) (step : World.Step debug misuse accepts world world') :
    ∃ σ', Simulates world' σ' ∧ System.Step misuse accepts σ σ' := by
  cases step with
  | @returned call reply w haccepted hrun =>
      by_cases hmisused : System.Misused σ.tables call
      · have hpanics := Call.panics haccepts misuse h hgood hdebug call haccepted hmisused
        have hruns : Runs (call.perform debug) world fun _ _ => True := ⟨_, _, hrun, trivial⟩
        exact absurd hpanics hruns.not_panics
      · exact (runs_of_eq hrun).mp
          (Call.returns haccepts misuse h hgood hdebug call haccepted hmisused)
  | @panicked hmisuse call message w haccepted hrun =>
      by_cases hmisused : System.Misused σ.tables call
      · obtain ⟨w', hrun', -, hstep⟩ := Call.panics haccepts misuse h hgood hdebug
          call haccepted hmisused
        rw [hrun] at hrun'
        cases hrun'
        exact hstep hmisuse
      · have hreturns := Call.returns haccepts misuse h hgood hdebug call haccepted hmisused
        have hpanics : Panics (call.perform debug) world message fun _ => True := ⟨_, hrun, trivial⟩
        exact absurd hpanics hreturns.not_panics

end Steps

end Calls

/-- Every run in memory is a run of tables. -/
theorem World.Run.simulates {debug : Bool} {misuse strict : Prop}
    {accepts : LockPtr → Range Index → Prop} {world : World Index Priority InProgress}
    (haccepts : ∀ p range, accepts p range → Table.Admissible strict p range)
    (hdebug : debug = true → strict) (run : World.Run debug misuse accepts world) :
    ∃ σ, Simulates world σ ∧ System.Run misuse accepts σ := by
  induction run with
  | init => exact ⟨.init, ⟨ModelsWith.init, List.Forall₂.nil⟩, .init⟩
  | step _ step ih =>
      obtain ⟨σ, hσ, hrun⟩ := ih
      obtain ⟨σ', hσ', hstep⟩ := step.simulates haccepts hσ (hrun.good haccepts) hdebug
      exact ⟨σ', hσ', hrun.step hstep⟩

end Interlock.Core
