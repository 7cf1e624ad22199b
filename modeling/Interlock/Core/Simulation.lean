import Interlock.Core.Region
import Interlock.Core.System

/-!
# The operations on memory and on tables

`Simulates world σ` says that the memory holds the tables of `σ`, and that the client has seen the
same events, with a memory that held the tables at that time.  There is one lemma for each
operation: it returns, and what it does is what the operation of the same name does to the tables.
This file has the operations that lock.
-/

namespace Interlock.Core

open Memory RbTree

variable {Index Priority InProgress : Type} [LinearOrder Index] [LinearOrder Priority]

/-- The same event, with related descriptions of the memory. -/
inductive Event.Related {Mem Mem' : Type} (R : Mem → Mem' → Prop) :
    Event Index Priority InProgress Mem → Event Index Priority InProgress Mem' → Prop where
  | inProgress (lock inProgress) : Related R (.inProgress lock inProgress)
      (.inProgress lock inProgress)
  | lockComplete (lock) : Related R (.lockComplete lock) (.lockComplete lock)
  | complete (lock inProgress) {mem mem'} (h : R mem mem') :
      Related R (.complete lock inProgress mem) (.complete lock inProgress mem')
  | resuming (lock) {mem mem'} (h : R mem mem') :
      Related R (.resuming lock mem) (.resuming lock mem')
  | resumed (lock) {mem mem'} (h : R mem mem') : Related R (.resumed lock mem) (.resumed lock mem')
  | returned (call reply) {mem mem'} (h : R mem mem') :
      Related R (.returned call reply mem) (.returned call reply mem')
  | panicked (call) : Related R (.panicked call) (.panicked call)

/-- The two logs of a run. -/
abbrev SameLogWith (stray : Stray) (log : Log Index Priority InProgress)
    (log' : List (Event Index Priority InProgress (Tables Index Priority InProgress))) : Prop :=
  List.Forall₂ (Event.Related fun store tables => ModelsWith stray tables store) log log'

structure SimulatesWith (stray : Stray) (world : World Index Priority InProgress)
    (σ : System Index Priority InProgress) : Prop where
  models : ModelsWith stray σ.tables world.store
  log : SameLogWith stray world.log σ.log

abbrev SameLog (log : Log Index Priority InProgress)
    (log' : List (Event Index Priority InProgress (Tables Index Priority InProgress))) : Prop :=
  SameLogWith .none log log'

abbrev Simulates (world : World Index Priority InProgress)
    (σ : System Index Priority InProgress) : Prop := SimulatesWith .none world σ

section Parts
variable {debug : Bool} {strict : Prop} {core : Addr} {stray : Stray}
  {store : Store Index Priority InProgress}
  {log : Log Index Priority InProgress} {world : World Index Priority InProgress}
  {tables : Tables Index Priority InProgress} {σ : System Index Priority InProgress}
  {p : LockPtr} {l : Lock Index} {s' : Table Index Priority InProgress} {held : Option Index}
  {e i stop : Index} {range : Range Index} {x : LockPtr × Pending Index Priority InProgress}

theorem SimulatesWith.note (h : SimulatesWith stray world σ)
    {event : Event Index Priority InProgress (Store Index Priority InProgress)}
    {event' : Event Index Priority InProgress (Tables Index Priority InProgress)}
    (hevent : Event.Related (fun store tables => ModelsWith stray tables store) event event') :
    SimulatesWith stray ⟨world.store, event :: world.log⟩ (σ.note event') :=
  ⟨h.models, List.Forall₂.cons hevent h.log⟩

/-- What has been changed is a region, and not the waiters. -/
theorem ModelsWith.of_regionsChange (h : PendingsModel stray tables store.pendings store.pending)
    (hqueue : s'.queue = (tables core).queue) {w : World Index Priority InProgress}
    (hw : RegionsChange stray (Function.update tables core s') store log w) :
    ∃ store', w = ⟨store', log⟩ ∧ ModelsWith stray (Function.update tables core s') store' := by
  obtain ⟨store', rfl, hregions, -, hpendings, hpending⟩ := hw
  refine ⟨store', rfl, hregions.parents, hregions.reads, hregions.writes, ?_⟩
  rw [hpendings, hpending]
  exact h.congr hqueue

/-- What has been changed is the tree of waiters. -/
theorem ModelsWith.of_pendings (h : ModelsWith stray tables store)
    {mem : TreeMem LockPtr (Pending Index Priority InProgress) Unit}
    (hlocks : s'.locks = (tables core).locks)
    (hpendings : PendingsModel stray (Function.update tables core s')
      (Function.update store.pendings core mem.tree) mem.heap) :
    ModelsWith stray (Function.update tables core s') (store.setPendingTree core mem) := by
  refine ⟨?_, ?_, ?_, ?_⟩
  · exact h.parents.congr fun q => by rw [hlocks]
  · simpa using h.reads.congr fun x => by rw [Table.ReadEntry, Table.ReadEntry, hlocks]
  · simpa using h.writes.congr fun x => by rw [Table.WriteEntry, Table.WriteEntry, hlocks]
  · simpa using hpendings

/-- The cell of a lock that does not wait. -/
theorem ModelsWith.pending_eq_none (h : ModelsWith stray tables store)
    (hstray : stray.parent p = none) (hp : ∀ c, p ∉ (tables c).queue.map Prod.fst) :
    store.pending.get p = none := by
  have hloose : p ∉ stray.pendings := fun hmem => stray.pendings_parent p hmem hstray
  have hlive := (h.pendings.live p).not.mpr (by simpa [hloose] using hp)
  simpa using hlive

theorem ModelsWith.pending_eq_some (h : ModelsWith stray tables store)
    (hx : x ∈ (tables core).queue) :
    ∃ n, store.pending.get x.1 = some n ∧ n.element = x.2 := Forest.get_isSome h.pendings hx

theorem ModelsWith.parent_eq (h : ModelsWith stray tables store)
    (hl : (tables core).locks p = some l) :
    store.parent p = some core :=
  (h.parents.tabled p core (h.parents.stray_eq_none hl)).mpr ⟨l, hl⟩

/-- A core that no lock state has gone astray from has those that point to it in its table. -/
theorem ModelsWith.tabled (h : ModelsWith stray tables store)
    (hcore : ∀ p, stray.parent p ≠ some core)
    (hp : store.parent p = some core) : ∃ l, (tables core).locks p = some l := by
  refine (h.parents.tabled p core ?_).mp hp
  by_contra hstray
  exact hcore p ((h.parents.strayed p hstray).1.symm.trans hp)

/-- A lock state that no core has claimed has not gone astray. -/
theorem ModelsWith.stray_eq_none (h : ModelsWith stray tables store) (hp : store.parent p = none) :
    stray.parent p = none := by
  by_contra hstray
  exact hstray ((h.parents.strayed p hstray).1.symm.trans hp)

theorem ModelsWith.not_inUse (h : ModelsWith stray tables store) (hp : store.parent p = none) :
    ¬ InUse tables p := by
  rintro ⟨c, l, hl⟩
  rw [h.parent_eq hl] at hp
  cases hp

theorem ModelsWith.parent_eq_none (h : Models tables store) (hp : ¬ InUse tables p) :
    store.parent p = none := by
  cases hparent : store.parent p with
  | none => rfl
  | some c => exact absurd ⟨c, (h.parents.tabled p c rfl).mp hparent⟩ hp

/-- A lock that waits has been claimed. -/
theorem Good.not_queued (h : Good strict tables) (hp : ¬ InUse tables p) (c : Addr) :
    p ∉ (tables c).queue.map Prod.fst :=
  (h.quiet c).not_queued (locks_eq_none_of_not_inUse hp c)

/-- Before anything has happened. -/
theorem ModelsWith.init :
    Models (fun _ => .empty) (Store.init : Store Index Priority InProgress) where
  parents := ⟨fun p c _ => by simp [Store.init, Table.empty], fun p hp => absurd rfl hp⟩
  reads := Indexed.empty.congr fun c x => by simp [Table.ReadEntry, Table.empty]
  writes := Indexed.empty.congr fun c x => by simp [Table.WriteEntry, Table.empty]
  pendings := Forest.empty

/-! ## Locking -/

omit [LinearOrder Index] [LinearOrder Priority] in
theorem setsHeld_add : ((tables core).add p range none).SetsHeld ((tables core).add p range held) p
    ⟨range.start, range.stop, none⟩ held := by
  refine ⟨by rw [Table.add_locks, if_pos rfl], fun q => ?_⟩
  rw [Table.add_locks, Table.add_locks]
  split <;> rfl

theorem claim_spec (h : ModelsWith stray tables store) (hp : store.parent p = none)
    (range : Range Index) :
    Runs (claim core p) ⟨store, log⟩ fun _ w => ∃ store', w = ⟨store', log⟩ ∧
      ModelsWith stray (Function.update tables core ((tables core).add p range none)) store' := by
  simp only [claim, runs_bind, runs_getStore, hp, Option.isSome_none,
    Bool.false_eq_true, if_false, runs_setParent]
  have hnone := locks_eq_none_of_not_inUse (h.not_inUse hp)
  refine ⟨_, rfl, ?_, ?_, ?_, ?_⟩
  · refine h.parents.claim hp ((Table.add_locks _ _ _ _ _).trans (if_pos rfl)) fun q hqp => ?_
    rw [Table.add_locks, if_neg hqp]
  · refine h.reads.congr fun x => ?_
    by_cases hxp : x.1.1 = p
    · simp [Table.ReadEntry, Table.add_locks, hxp, hnone core]
    · simp [Table.ReadEntry, Table.add_locks, hxp]
  · refine h.writes.congr fun x => ?_
    by_cases hxp : x.1 = p
    · simp [Table.WriteEntry, Table.add_locks, hxp, hnone core]
    · simp [Table.WriteEntry, Table.add_locks, hxp]
  · exact h.pendings.congr rfl

/-- `borrow` makes the nodes for a first region of `p`. -/
def Borrows (core : Addr) (p : LockPtr)
    (borrow : Range Index → CoreM Index Priority InProgress Unit) : Prop :=
  ∀ stray tables store log l e s', ModelsWith stray tables store →
    (tables core).SetsHeld s' p l (some e) → s'.queue = (tables core).queue → l.held = none →
    Runs (borrow ⟨l.start, e⟩) ⟨store, log⟩ fun _ w => ∃ store', w = ⟨store', log⟩ ∧
      ModelsWith stray (Function.update tables core s') store'

theorem borrowRead_borrows (hp : p.kind.isWrite = false) :
    Borrows core p (borrowRead debug core p : Range Index →
      CoreM Index Priority InProgress Unit) := by
  intro stray tables store log l e s' h hsets hqueue hheld
  have hfree := h.regions.read_eq_none hsets.1 hheld false
  simp only [borrowRead, hasReadNodes, runs_bind, runs_getStore, runs_pure, runs_debugAssert, hfree,
    Option.isSome_none, Bool.not_false, implies_true, true_and]
  refine (insertReadNodes_region h.regions hsets hp hheld).mono fun _ w hw => ?_
  exact ModelsWith.of_regionsChange h.pendings hqueue hw

theorem borrowWrite_borrows (hp : p.kind.isWrite = true) :
    Borrows core p
      (borrowWrite debug core p : Range Index → CoreM Index Priority InProgress Unit) := by
  intro stray tables store log l e s' h hsets hqueue hheld
  have hfree := h.regions.write_eq_none hsets.1 hheld
  simp only [borrowWrite, hasWriteNode, runs_bind, runs_getStore, runs_pure, runs_debugAssert,
    hfree, Option.isSome_none, Bool.not_false, implies_true, true_and]
  refine (insertWriteNode_region h.regions hsets hp hheld).mono fun _ w hw => ?_
  exact ModelsWith.of_regionsChange h.pendings hqueue hw

/-- A new lock borrows a first region. -/
theorem Borrows.add {borrow : Range Index → CoreM Index Priority InProgress Unit}
    (hborrow : Borrows core p borrow)
    (h : ModelsWith stray (Function.update tables core ((tables core).add p range none)) store)
    (e : Index) :
    Runs (borrow ⟨range.start, e⟩) ⟨store, log⟩ fun _ w => ∃ store', w = ⟨store', log⟩ ∧
      ModelsWith stray (Function.update tables core ((tables core).add p range (some e)))
        store' := by
  have hsets : (Function.update tables core ((tables core).add p range none) core).SetsHeld
      ((tables core).add p range (some e)) p ⟨range.start, range.stop, none⟩ (some e) := by
    rw [Function.update_self]
    exact setsHeld_add
  have hqueue : ((tables core).add p range (some e)).queue =
      (Function.update tables core ((tables core).add p range none) core).queue := by
    rw [Function.update_self]
    rfl
  simpa only [Function.update_idem] using hborrow _ _ _ log _ e _ h hsets hqueue rfl

theorem insertPendingNode_models (h : ModelsWith stray tables store)
    (hstray : stray.parent p = none) (hp : ∀ c, p ∉ (tables c).queue.map Prod.fst)
    (hsorted : (tables core).queue.Pairwise fun x y => pendingLe x.2 y.2)
    (pending : Pending Index Priority InProgress) :
    Runs (insertPendingNode debug core p pending) ⟨store, log⟩ fun _ w =>
      ∃ store', w = ⟨store', log⟩ ∧
        ModelsWith stray (Function.update tables core ((tables core).enqueue (p, pending)))
          store' := by
  have hqueue : ((tables core).enqueue (p, pending)).queue =
      insertSeq pendingNodeCallback (p, pending) (tables core).queue := rfl
  refine (insertPendingNode_spec h.pendings hsorted (h.pending_eq_none hstray hp) hqueue).mono ?_
  rintro _ w ⟨mem, rfl, hpendings⟩
  exact ⟨_, rfl, h.of_pendings rfl hpendings⟩

/-- The search of a lock operation for the first conflict. -/
def Finds (core : Addr) (p : LockPtr) (range : Range Index) (strict : Prop)
    (conflict : CoreM Index Priority InProgress (Option Index)) : Prop :=
  ∀ stray tables store log, ModelsWith stray tables store → (tables core).Sound strict →
    Runs conflict ⟨store, log⟩ fun r w => w = ⟨store, log⟩ ∧
      r = (tables core).firstConflict p range

/-- A lock operation does what its search tells it to do. -/
theorem lockWith_at {Output : Type} {found : Option Index → Prop} (h : SimulatesWith stray world σ)
    (hlinked : ∀ c, (σ.tables c).WellLinked)
    {conflict : CoreM Index Priority InProgress (Option Index)}
    {borrow : Range Index → CoreM Index Priority InProgress Unit}
    (hconflict : Runs conflict world fun r w => w = world ∧ found r)
    (hborrow : Borrows core p borrow) (hdebug : debug = true → range.start < range.stop)
    (hp : world.store.parent p = none) (priority : Priority)
    (callback : LockCallback InProgress Output) :
    Runs (lockWith debug core conflict borrow p range priority callback) world fun output w =>
      ∃ r, found r ∧ SimulatesWith stray w
        (σ.lockAt core p range priority callback.inProgress.2 r) ∧
        (output = r.elim callback.complete fun _ => callback.inProgress.1) ∧
        w.log = lockEvent r p callback.inProgress.2 :: world.log := by
  obtain ⟨store, log⟩ := world
  simp only [lockWith, runs_bind, runs_debugAssert, decide_eq_true_eq]
  refine ⟨hdebug, hconflict.mono ?_⟩
  rintro r w ⟨rfl, hfound⟩
  cases r with
  | none =>
      simp only [runs_bind, runs_record, runs_pure]
      have hlog : SameLogWith stray (.lockComplete p :: log) (.lockComplete p :: σ.log) :=
        List.Forall₂.cons (.lockComplete p) h.log
      refine (claim_spec h.models hp range).mono ?_
      rintro _ _ ⟨store₁, rfl, h₁⟩
      simp only [runs_abortOnUnwind, runs_bind, runs_pure]
      refine (hborrow.add h₁ range.stop).mono ?_
      rintro _ _ ⟨store₂, rfl, h₂⟩
      exact ⟨none, hfound, ⟨h₂, hlog⟩, rfl, rfl⟩
  | some i =>
      simp only [runs_bind, runs_record, runs_pure]
      set pending : Pending Index Priority InProgress :=
        ⟨⟨i, range.stop⟩, priority, p, callback.inProgress.2⟩ with hpending
      have hlog : SameLogWith stray (.inProgress p callback.inProgress.2 :: log)
          (.inProgress p callback.inProgress.2 :: σ.log) :=
        List.Forall₂.cons (.inProgress p _) h.log
      -- The waiter is inserted when the region in front of the conflict has been borrowed
      have hinsert : ∀ store held, ModelsWith stray (Function.update σ.tables core
          ((σ.tables core).add p range held)) store →
          Runs (insertPendingNode debug core p pending)
            ⟨store, .inProgress p callback.inProgress.2 :: log⟩ fun _ w =>
              ∃ store', w = ⟨store', .inProgress p callback.inProgress.2 :: log⟩ ∧
                ModelsWith stray (Function.update σ.tables core
                  (((σ.tables core).add p range held).enqueue (p, pending))) store' := by
        intro store held hstore
        have hqueue : ∀ c, (Function.update σ.tables core
          ((σ.tables core).add p range held) c).queue =
            (σ.tables c).queue := by
          intro c
          by_cases hc : c = core
          · subst hc
            rw [Function.update_self, Table.add_queue]
          · rw [Function.update_of_ne hc]
        refine (insertPendingNode_models hstore (h.models.stray_eq_none hp) (fun c => ?_) ?_
          pending).mono ?_
        · rw [hqueue]
          exact (hlinked c).not_queued (locks_eq_none_of_not_inUse (h.models.not_inUse hp) c)
        · rw [hqueue]
          exact (hlinked core).sorted
        · rintro _ w ⟨store', rfl, hstore'⟩
          exact ⟨store', rfl, by
            simpa only [Function.update_self, Function.update_idem] using hstore'⟩
      refine (claim_spec h.models hp range).mono ?_
      rintro _ _ ⟨store₁, rfl, h₁⟩
      simp only [runs_abortOnUnwind]
      have hfinal : ∀ store₃ held, held = (if i = range.start then none else some i) →
          ModelsWith stray (Function.update σ.tables core
            (((σ.tables core).add p range held).enqueue (p, pending))) store₃ →
          SimulatesWith stray ⟨store₃, .inProgress p callback.inProgress.2 :: log⟩
            (σ.lockAt core p range priority callback.inProgress.2 (some i)) := by
        rintro store₃ held rfl hmodels
        exact ⟨hmodels, hlog⟩
      by_cases hi : i = range.start
      · rw [if_neg (not_not_intro hi)]
        refine (hinsert store₁ none h₁).mono ?_
        rintro _ _ ⟨store₃, rfl, h₃⟩
        exact ⟨some i, hfound, hfinal store₃ none (if_pos hi).symm h₃, rfl, rfl⟩
      · rw [if_pos hi]
        simp only [runs_bind]
        refine (hborrow.add h₁ i).mono ?_
        rintro _ _ ⟨store₂, rfl, h₂⟩
        refine (hinsert store₂ (some i) h₂).mono ?_
        rintro _ _ ⟨store₃, rfl, h₃⟩
        exact ⟨some i, hfound, hfinal store₃ (some i) (if_neg hi).symm h₃, rfl, rfl⟩

theorem lockWith_spec {Output : Type} (h : Simulates world σ) (hgood : Good strict σ.tables)
    {conflict : CoreM Index Priority InProgress (Option Index)}
    {borrow : Range Index → CoreM Index Priority InProgress Unit}
    (hconflict : Finds core p range strict conflict) (hborrow : Borrows core p borrow)
    (hdebug : debug = true → range.start < range.stop) (hp : ¬ InUse σ.tables p)
    (priority : Priority) (callback : LockCallback InProgress Output) :
    Runs (lockWith debug core conflict borrow p range priority callback) world fun output w =>
      Simulates w (σ.lock core p range priority callback.inProgress.2) ∧
        (output = ((σ.tables core).firstConflict p range).elim callback.complete
          fun _ => callback.inProgress.1) ∧
        w.log = lockEvent ((σ.tables core).firstConflict p range) p callback.inProgress.2 ::
          world.log := by
  have hsearch := hconflict _ _ _ world.log h.models (hgood.quiet core).toSound
  refine (lockWith_at h (fun c => (hgood.quiet c).wellLinked) hsearch hborrow hdebug
    (h.models.parent_eq_none hp) priority callback).mono ?_
  rintro output w ⟨r, rfl, hw, houtput, hlog⟩
  exact ⟨hw, houtput, hlog⟩

/-- The search of a non-blocking lock operation. -/
def FindsAny (core : Addr) (p : LockPtr) (range : Range Index) (strict : Prop)
    (conflict : CoreM Index Priority InProgress Bool) : Prop :=
  ∀ stray tables store log, ModelsWith stray tables store → (tables core).Sound strict →
    Runs conflict ⟨store, log⟩ fun r w => w = ⟨store, log⟩ ∧
      r = ((tables core).firstConflict p range).isSome

/-- A non-blocking lock operation does what its search tells it to do. -/
theorem tryLockWith_at {found : Bool → Prop} (h : SimulatesWith stray world σ)
    {conflict : CoreM Index Priority InProgress Bool}
    {borrow : Range Index → CoreM Index Priority InProgress Unit}
    (hconflict : Runs conflict world fun r w => w = world ∧ found r)
    (hborrow : Borrows core p borrow) (hdebug : debug = true → range.start < range.stop)
    (hp : found false → world.store.parent p = none) :
    Runs (tryLockWith debug core conflict borrow p range) world fun r w => found (!r) ∧
      if r then SimulatesWith stray w (σ.put core ((σ.tables core).add p range (some range.stop)))
      else w = world := by
  obtain ⟨store, log⟩ := world
  simp only [tryLockWith, runs_bind, runs_debugAssert, decide_eq_true_eq]
  refine ⟨hdebug, hconflict.mono ?_⟩
  rintro r w ⟨rfl, hfound⟩
  cases r with
  | true => simpa using hfound
  | false =>
      simp only [Bool.false_eq_true, if_false, runs_bind, runs_abortOnUnwind, runs_pure,
        Bool.not_true, if_true]
      refine (claim_spec h.models (hp hfound) range).mono ?_
      rintro _ _ ⟨store₁, rfl, h₁⟩
      refine (hborrow.add h₁ range.stop).mono ?_
      rintro _ _ ⟨store₂, rfl, h₂⟩
      exact ⟨hfound, h₂, h.log⟩

theorem tryLockWith_spec (h : Simulates world σ) (hgood : Good strict σ.tables)
    {conflict : CoreM Index Priority InProgress Bool}
    {borrow : Range Index → CoreM Index Priority InProgress Unit}
    (hconflict : FindsAny core p range strict conflict) (hborrow : Borrows core p borrow)
    (hdebug : debug = true → range.start < range.stop)
    (hp : (σ.tables core).firstConflict p range = none → ¬ InUse σ.tables p) :
    Runs (tryLockWith debug core conflict borrow p range) world fun r w =>
      Simulates w (σ.tryLock core p range) ∧
        r = ((σ.tables core).firstConflict p range).isNone ∧ (r = false → w = world) := by
  have hsearch := hconflict _ _ _ world.log h.models (hgood.quiet core).toSound
  refine (tryLockWith_at h hsearch hborrow hdebug
    fun hnone => h.models.parent_eq_none (hp ?_)).mono ?_
  · rwa [eq_comm, Option.isSome_eq_false_iff, Option.isNone_iff_eq_none] at hnone
  rintro r w ⟨hr, hw⟩
  cases hfirst : (σ.tables core).firstConflict p range with
  | some i =>
      have hself : σ.tryLock core p range = σ := by
        simp only [System.tryLock, Table.tryLock, hfirst, System.put, Function.update_eq_self]
      obtain rfl : r = false := by simpa [hfirst] using hr
      have hw : w = world := hw
      rw [hself, hw]
      exact ⟨h, rfl, fun _ => rfl⟩
  | none =>
      obtain rfl : r = true := by simpa [hfirst] using hr
      have hadd : σ.tryLock core p range =
          σ.put core ((σ.tables core).add p range (some range.stop)) := by
        simp only [System.tryLock, Table.tryLock, hfirst]
      rw [hadd]
      exact ⟨hw, rfl, fun hfalse => by cases hfalse⟩

/-! ### The searches -/

theorem lockRead_finds (hp : p.kind.isWrite = false) :
    Finds core p range strict (firstWriteBorrowInRange core range :
      CoreM Index Priority InProgress (Option Index)) :=
  fun _ _ _ _ h hsound => firstConflict_read_spec h.writes hsound hp

theorem lockWrite_finds (hdebug : debug = true → strict) (hrange : range.start < range.stop)
    (hp : p.kind.isWrite = true) :
    Finds core p range strict (do
      let firstWriteIndex ← firstWriteBorrowInRange core range
      let firstReadIndex ← firstReadBorrowInRange debug core range
      return lowerConflict firstWriteIndex firstReadIndex :
        CoreM Index Priority InProgress (Option Index)) := by
  intro stray tables store log h hsound
  simp only [runs_bind]
  refine (firstConflict_write_spec h.writes h.reads hsound hdebug hrange hp).mono ?_
  rintro r w ⟨rfl, hr⟩
  refine hr.mono ?_
  rintro r' w ⟨rfl, heq⟩
  simpa using heq

theorem tryLockRead_findsAny (hp : p.kind.isWrite = false) :
    FindsAny core p range strict (do return (← firstWriteBorrowInRange core range).isSome :
      CoreM Index Priority InProgress Bool) := by
  intro stray tables store log h hsound
  simp only [runs_bind]
  refine (firstConflict_read_spec h.writes hsound hp).mono ?_
  rintro r w ⟨rfl, rfl⟩
  simp

theorem tryLockWrite_findsAny (hdebug : debug = true → strict) (hrange : range.start < range.stop)
    (hp : p.kind.isWrite = true) :
    FindsAny core p range strict (do
      if (← firstWriteBorrowInRange core range).isSome then return true
      return (← firstReadBorrowInRange debug core range).isSome :
        CoreM Index Priority InProgress Bool) := by
  intro stray tables store log h hsound
  simp only [runs_bind]
  refine (firstConflict_write_spec h.writes h.reads hsound hdebug hrange hp).mono ?_
  rintro r w ⟨rfl, hr⟩
  cases r with
  | some i =>
      obtain ⟨r', w, hrun, rfl, heq⟩ := hr
      simp [← heq, lowerConflict_isSome]
  | none =>
      simp only [Option.isSome_none, Bool.false_eq_true, if_false, runs_bind, runs_pure]
      refine hr.mono ?_
      rintro r' w ⟨rfl, heq⟩
      simp [← heq, lowerConflict_isSome]

end Parts

end Interlock.Core
