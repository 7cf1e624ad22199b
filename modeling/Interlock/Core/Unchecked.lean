import Interlock.Core.Calls
import Interlock.Core.Links

/-!
# Calls with any range

Without debug assertions nothing rejects an empty range.  The searches then miss conflicts, but what
they find lies in the range or behind it, and this is enough for the trees and the lock states to
fit together.  With debug assertions the calls that are not rejected are those of a run.
-/

namespace Interlock.Core

open Memory RbTree

variable {Index Priority InProgress : Type} [LinearOrder Index] [LinearOrder Priority]

/-- The state between calls with any ranges. -/
structure Regular (debug : Bool) (tables : Tables Index Priority InProgress) : Prop where
  coherent : Coherent tables
  good : debug = true → Good True tables

/-- The core that an operation is called on. -/
def Call.core : Call Index Priority InProgress → Addr
  | .lock _ core .. | .tryLock _ core .. | .unlock core _ | .inspect _ core .. => core

/-- Who has claimed which lock state after a call that returned `reply`. -/
def Call.claims (parent : LockPtr → Option Addr) (reply : Reply InProgress) :
    Call Index Priority InProgress → LockPtr → Option Addr
  | .lock isWrite core state _ _ _ => Function.update parent (lockPtr isWrite state) (some core)
  | .tryLock isWrite core state _ =>
      match reply with
      | .locked true => Function.update parent (tryLockPtr isWrite state) (some core)
      | _ => parent
  | .unlock _ p => Function.update parent p none
  | .inspect .. => parent

/-- The lock state that is passed is not in the right hands: a lock operation needs one that nobody
has claimed, the others one of the same core. -/
def Call.Misfit (parent : LockPtr → Option Addr) : Call Index Priority InProgress → Prop
  | .lock isWrite _ state .. => parent (lockPtr isWrite state) ≠ none
  | .tryLock isWrite _ state _ => parent (tryLockPtr isWrite state) ≠ none
  | .unlock core p => parent p ≠ some core
  | .inspect isWrite core state _ => parent (lockPtr isWrite state) ≠ some core

/-- What a call can panic with, and why. -/
def Call.Complains (debug : Bool) (parent : LockPtr → Option Addr)
    (call : Call Index Priority InProgress) (message : String) : Prop :=
  call.Misfit parent ∧ message = call.misuseMessage ∨
    debug = true ∧ ¬ call.Accepted Nonempty ∧ message = invalidRange

section Parts
variable {debug : Bool} {core : Addr} {stray : Stray} {p : LockPtr} {range : Range Index}
  {tables : Tables Index Priority InProgress} {store : Store Index Priority InProgress}
  {log : Log Index Priority InProgress} {world : World Index Priority InProgress}
  {σ : System Index Priority InProgress} {x : LockPtr × Pending Index Priority InProgress}

/-! ## Searches -/

/-- What a search for the first conflict finds. -/
structure Answers (debug : Bool) (s : Table Index Priority InProgress) (p : LockPtr)
    (range : Range Index) (r : Option Index) : Prop where
  le : ∀ i, r = some i → range.start ≤ i
  precise : debug = true → r = s.firstConflict p range

omit [LinearOrder Priority] in
theorem firstWriteBorrowInRange_le (h : WritesModel stray tables store.writes store.write) :
    Runs (firstWriteBorrowInRange core range) (⟨store, log⟩ : World Index Priority InProgress)
      fun r w => w = ⟨store, log⟩ ∧ ∀ i, r = some i → range.start ≤ i := by
  obtain ⟨seqs, hforest, -⟩ := h
  have hlinked := hforest.linked core
  simp only [firstWriteBorrowInRange, runs_bind, runs_onWrites]
  refine hlinked.lowerBound_mem.mono ?_
  rintro r mem ⟨hr, rfl⟩
  simp only [setWriteTree_self]
  cases r with
  | none => simp
  | some q =>
      obtain ⟨y, hy, rfl, -⟩ := hr q rfl
      obtain ⟨n, hn, -⟩ := hlinked.get hy
      simp only [runs_bind, runs_onWrites, runs_load, hn, Option.some.injEq, exists_eq_left',
        setWriteTree_self]
      split
      · simp
      · simp

omit [LinearOrder Priority] in
theorem firstReadBorrowInRange_le (h : ReadsModel stray tables store.reads store.read) :
    Runs (firstReadBorrowInRange false core range) (⟨store, log⟩ : World Index Priority InProgress)
      fun r w => w = ⟨store, log⟩ ∧ ∀ i, r = some i → range.start ≤ i := by
  obtain ⟨seqs, hforest, -⟩ := h
  have hlinked := hforest.linked core
  simp only [firstReadBorrowInRange, runs_bind, runs_onReads]
  refine hlinked.lowerBound_mem.mono ?_
  rintro r mem ⟨hr, rfl⟩
  simp only [setReadTree_self]
  cases r with
  | none => simp
  | some q =>
      obtain ⟨y, hy, rfl, hcmp⟩ := hr q rfl
      obtain ⟨n, hn, helement⟩ := hlinked.get hy
      have hlt : range.start < y.2.1 := compare_then_gt.mp hcmp
      obtain ⟨pre, post, hseq⟩ := List.append_of_mem hy
      rw [hseq] at hlinked
      simp only [runs_bind, runs_onReads, runs_load, hn, Option.some.injEq, exists_eq_left',
        setReadTree_self, runs_debugAssert, Bool.false_eq_true, false_implies, true_and]
      refine hlinked.prefixSum.mono ?_
      rintro sum mem ⟨-, rfl⟩
      simp only [setReadTree_self, helement]
      split
      · simp
      · split
        · simp [hlt.le]
        · simp

theorem le_lowerConflict {start : Index} {r r' : Option Index} (h : ∀ i, r = some i → start ≤ i)
    (h' : ∀ i, r' = some i → start ≤ i) (i : Index) (hi : lowerConflict r r' = some i) :
    start ≤ i := by
  cases r with
  | none =>
      cases r' with
      | none => cases hi
      | some j => exact h' i hi
  | some j =>
      cases r' with
      | none => exact h i hi
      | some k =>
          rw [← Option.some.inj hi]
          exact le_min (h j rfl) (h' k rfl)

theorem searches_answers (h : ModelsWith stray tables store)
    (hsound : debug = true → (tables core).Sound True ∧ range.start < range.stop) :
    Searches debug core p range (⟨store, log⟩ : World Index Priority InProgress)
      (Answers debug (tables core) p range) := by
  cases debug with
  | true =>
      obtain ⟨hsound, hrange⟩ := hsound rfl
      have hsearch :
          Searches true core p range (⟨store, log⟩ : World Index Priority InProgress) _ :=
        resumeSearch_spec h hsound (fun _ => trivial) fun _ => hrange
      refine hsearch.mono fun _ _ hr => hr.mono fun _ _ hr' => ⟨hr'.1, ?_⟩
      rw [hr'.2]
      exact ⟨fun i hi => (hsound.le_firstConflict hi).1, fun _ => rfl⟩
  | false =>
      refine (firstWriteBorrowInRange_le h.writes).mono ?_
      rintro r w ⟨rfl, hr⟩
      cases p.kind.isWrite with
      | true =>
          refine (firstReadBorrowInRange_le h.reads).mono ?_
          rintro r' w ⟨rfl, hr'⟩
          exact ⟨rfl, le_lowerConflict hr hr', fun hd => by cases hd⟩
      | false =>
          simp only [Bool.false_eq_true, if_false, runs_pure, lowerConflict_none_right, true_and]
          exact ⟨hr, fun hd => by cases hd⟩

/-! ## Locking -/

omit [LinearOrder Priority] in
theorem lockRead_answers {found : Option Index → Prop} (hp : p.kind.isWrite = false)
    (hsearch : Searches debug core p range world found) :
    Runs (firstWriteBorrowInRange core range) world fun r w => w = world ∧ found r := by
  unfold Searches at hsearch
  refine hsearch.mono fun r w hr => ?_
  simpa [hp, lowerConflict_none_right] using hr

omit [LinearOrder Priority] in
theorem lockWrite_answers {found : Option Index → Prop} (hp : p.kind.isWrite = true)
    (hsearch : Searches debug core p range world found) :
    Runs (do
      let firstWriteIndex ← firstWriteBorrowInRange core range
      let firstReadIndex ← firstReadBorrowInRange debug core range
      return lowerConflict firstWriteIndex firstReadIndex) world fun r w =>
        w = world ∧ found r := by
  unfold Searches at hsearch
  rw [runs_bind]
  refine hsearch.mono fun r w hr => ?_
  rw [if_pos hp] at hr
  rw [runs_bind]
  exact hr.mono fun r' w' hr' => runs_pure.mpr hr'

omit [LinearOrder Priority] in
/-- The non-blocking operations search in the same way, but stop when they have found something. -/
theorem tryLockRead_answers {found : Option Index → Prop} (hp : p.kind.isWrite = false)
    (hsearch : Searches debug core p range world found) :
    Runs (do return (← firstWriteBorrowInRange core range).isSome) world
      fun r w => w = world ∧ ∃ conflict, found conflict ∧ r = conflict.isSome := by
  rw [runs_bind]
  refine (lockRead_answers hp hsearch).mono ?_
  rintro r w ⟨rfl, hr⟩
  exact runs_pure.mpr ⟨rfl, r, hr, rfl⟩

omit [LinearOrder Priority] in
theorem tryLockWrite_answers {found : Option Index → Prop} (hp : p.kind.isWrite = true)
    (hself : Runs (firstWriteBorrowInRange core range) world fun _ w => w = world)
    (hsearch : Searches debug core p range world found) :
    Runs (do
      if (← firstWriteBorrowInRange core range).isSome then return true
      return (← firstReadBorrowInRange debug core range).isSome) world
      fun r w => w = world ∧ ∃ conflict, found conflict ∧ r = conflict.isSome := by
  unfold Searches at hsearch
  rw [runs_bind]
  obtain ⟨r, w, hrun, rfl⟩ := hself
  rw [runs_of_eq hrun, if_pos hp] at hsearch
  refine (runs_of_eq hrun).mpr ?_
  cases r with
  | some i =>
      obtain ⟨r', w', -, -, hfound⟩ := hsearch
      rw [if_pos (Option.isSome_some), runs_pure]
      refine ⟨rfl, _, hfound, ?_⟩
      rw [lowerConflict_isSome]
      rfl
  | none =>
      rw [if_neg (by simp), runs_bind]
      refine hsearch.mono ?_
      rintro r' w' ⟨rfl, hfound⟩
      refine runs_pure.mpr ⟨rfl, _, hfound, ?_⟩
      rw [lowerConflict_isSome, Option.isSome_none, Bool.false_or]

/-- After a call, the tables have changed and the memory still holds them; `parent` says who has
claimed which lock state. -/
def Settles (stray : Stray) (debug : Bool) (parent : LockPtr → Option Addr)
    (world : World Index Priority InProgress) : Prop :=
  ∃ σ, SimulatesWith stray world σ ∧ Regular debug σ.tables ∧ world.store.parent = parent

/-- A core claims `p`. -/
theorem Settles.claim {s' : Table Index Priority InProgress} {l : Lock Index}
    {σ' : System Index Priority InProgress} {w : World Index Priority InProgress}
    (h : SimulatesWith stray world σ) (hregular : Regular debug σ.tables)
    (hp : world.store.parent p = none) (hidle : s'.Idle) (hquiet : debug = true → s'.Quiet True)
    (hl : s'.locks p = some l) (hlocks : ∀ q, q ≠ p → s'.locks q = (σ.tables core).locks q)
    (hw : SimulatesWith stray w σ') (htables : σ'.tables = Function.update σ.tables core s') :
    Settles stray debug (Function.update world.store.parent p (some core)) w := by
  have hfresh := h.models.not_inUse hp
  refine ⟨σ', hw, ?_, ?_⟩
  · rw [htables]
    exact ⟨hregular.coherent.claim hfresh hidle hlocks,
      fun hd => (hregular.good hd).claim hfresh (hquiet hd) hlocks⟩
  · have hparents := h.models.parents.claim hp hl fun q hqp => by rw [hlocks q hqp]
    rw [← htables] at hparents
    exact hw.models.parents.unique hparents

theorem lockAt_locks (s : Table Index Priority InProgress) (p : LockPtr) (range : Range Index)
    (priority : Priority) (inProgress : InProgress) (conflict : Option Index) :
    (∃ l, (s.lockAt p range priority inProgress conflict).locks p = some l) ∧
      ∀ q, q ≠ p → (s.lockAt p range priority inProgress conflict).locks q = s.locks q := by
  cases conflict with
  | none =>
      exact ⟨⟨_, (Table.add_locks _ _ _ _ _).trans (if_pos rfl)⟩,
        fun q hqp => (Table.add_locks _ _ _ _ _).trans (if_neg hqp)⟩
  | some i =>
      exact ⟨⟨_, (Table.add_locks _ _ _ _ _).trans (if_pos rfl)⟩,
        fun q hqp => (Table.add_locks _ _ _ _ _).trans (if_neg hqp)⟩

theorem lock_settles (h : SimulatesWith stray world σ) (hregular : Regular debug σ.tables)
    (isWrite : Bool) (core state : Addr) (hrange : debug = true → range.start < range.stop)
    (hp : world.store.parent (lockPtr isWrite state) = none) (priority : Priority)
    (inProgress : InProgress) :
    Runs (Call.perform debug (.lock isWrite core state range priority inProgress)) world
      fun _ w => Settles stray debug
        (Function.update world.store.parent (lockPtr isWrite state) (some core)) w := by
  have hlinked := fun c => (hregular.coherent.idle c).toWellLinked
  have hfree := locks_eq_none_of_not_inUse (h.models.not_inUse hp) core
  have hsearch : Searches debug core (lockPtr isWrite state) range world
      (Answers debug (σ.tables core) (lockPtr isWrite state) range) :=
    searches_answers h.models fun hd => ⟨(hregular.good hd).quiet core |>.toSound, hrange hd⟩
  have hsettles : ∀ r w, Answers debug (σ.tables core) (lockPtr isWrite state) range r →
      SimulatesWith stray w (σ.lockAt core (lockPtr isWrite state) range priority inProgress r) →
      Settles stray debug (Function.update world.store.parent (lockPtr isWrite state) (some core))
        w := by
    intro r w hr hw
    have hkind := lockPtr_kind isWrite state
    obtain ⟨⟨l, hl⟩, hlocks⟩ := lockAt_locks (σ.tables core) (lockPtr isWrite state) range priority
      inProgress r
    refine Settles.claim h hregular hp ((hregular.coherent.idle core).lockAt hfree hkind range
      priority inProgress r) (fun hd => ?_) hl hlocks hw rfl
    rw [hr.precise hd]
    exact ((hregular.good hd).quiet core).lock hfree hkind
      ⟨(hrange hd).le, fun _ => hrange hd⟩ priority inProgress
  cases isWrite with
  | true =>
      simp only [Call.perform, if_true, lockWrite, runs_bind]
      refine (lockWith_at h hlinked (lockWrite_answers rfl hsearch)
        (borrowWrite_borrows rfl) hrange hp priority _).mono ?_
      rintro output w ⟨r, hr, hw, -⟩
      exact runs_pure.mpr (hsettles r w hr hw)
  | false =>
      simp only [Call.perform, Bool.false_eq_true, if_false, lockRead, runs_bind]
      refine (lockWith_at h hlinked (lockRead_answers rfl hsearch)
        (borrowRead_borrows rfl) hrange hp priority _).mono ?_
      rintro output w ⟨r, hr, hw, -⟩
      exact runs_pure.mpr (hsettles r w hr hw)

theorem tryLockWith_settles (h : SimulatesWith stray world σ) (hregular : Regular debug σ.tables)
    {conflict : CoreM Index Priority InProgress Bool}
    {borrow : Range Index → CoreM Index Priority InProgress Unit}
    (hconflict : Runs conflict world fun r w => w = world ∧
      ∃ conflict, Answers debug (σ.tables core) p range conflict ∧ r = conflict.isSome)
    (hborrow : Borrows core p borrow) (hrange : debug = true → range.start < range.stop) :
    Runs (tryLockWith debug core conflict borrow p range) world (fun r w => Settles stray debug
      (if r then Function.update world.store.parent p (some core) else world.store.parent) w ∧
      (world.store.parent p ≠ none → r = false ∧ w = world)) ∨
    world.store.parent p ≠ none ∧
      Panics (tryLockWith debug core conflict borrow p range) world stillInUse (· = world) := by
  by_cases hp : world.store.parent p = none
  · left
    refine (tryLockWith_at h hconflict hborrow hrange fun _ => hp).mono ?_
    rintro r w ⟨⟨answer, hanswer, hr⟩, hw⟩
    refine ⟨?_, fun hne => absurd hp hne⟩
    cases r with
    | false =>
        obtain rfl : w = world := hw
        exact ⟨σ, h, hregular, rfl⟩
    | true =>
        have hfree := locks_eq_none_of_not_inUse (h.models.not_inUse hp) core
        obtain rfl : answer = none := by simpa using hr
        refine Settles.claim h hregular hp ((hregular.coherent.idle core).add hfree range _)
          (fun hd => ?_) ((Table.add_locks _ _ _ _ _).trans (if_pos rfl))
          (fun q hqp => (Table.add_locks _ _ _ _ _).trans (if_neg hqp)) hw rfl
        have hquiet := ((hregular.good hd).quiet core).tryLock hfree
          ⟨(hrange hd).le, fun _ => hrange hd⟩
        rwa [Table.tryLock, ← hanswer.precise hd] at hquiet
  · obtain ⟨r, w, hrun, rfl, -⟩ := hconflict
    have hself : Runs conflict w fun r' w' => w' = w ∧ r' = r :=
      (runs_of_eq hrun).mpr ⟨rfl, rfl⟩
    cases r with
    | true =>
        left
        refine (tryLockWith_at h hself hborrow hrange fun hfalse => by cases hfalse).mono ?_
        rintro r w' ⟨hr, hw⟩
        obtain rfl : r = false := by simpa using hr
        obtain rfl : w' = w := hw
        exact ⟨⟨σ, h, hregular, rfl⟩, fun _ => ⟨rfl, rfl⟩⟩
    | false =>
        right
        refine ⟨hp, ?_⟩
        exact tryLockWith_panics_at hself hrange (Option.isSome_iff_ne_none.mpr hp)

theorem tryLock_settles (h : SimulatesWith stray world σ) (hregular : Regular debug σ.tables)
    (isWrite : Bool) (core state : Addr) (hrange : debug = true → range.start < range.stop) :
    Runs (Call.perform debug (.tryLock isWrite core state range)) world (fun reply w =>
      ∃ complete, reply = .locked complete ∧ Settles stray debug (if complete
        then Function.update world.store.parent (tryLockPtr isWrite state) (some core)
        else world.store.parent) w ∧
        (world.store.parent (tryLockPtr isWrite state) ≠ none → complete = false ∧ w = world)) ∨
    world.store.parent (tryLockPtr isWrite state) ≠ none ∧
      Panics (Call.perform debug (.tryLock isWrite core state range)) world stillInUse
        (· = world) := by
  have hsearch : Searches debug core (tryLockPtr isWrite state) range world
      (Answers debug (σ.tables core) (tryLockPtr isWrite state) range) :=
    searches_answers h.models fun hd => ⟨(hregular.good hd).quiet core |>.toSound, hrange hd⟩
  cases isWrite with
  | true =>
      have hself : Runs (firstWriteBorrowInRange core range) world fun _ w => w = world :=
        (firstWriteBorrowInRange_le h.models.writes).mono fun _ _ hw => hw.1
      refine (tryLockWith_settles h hregular (tryLockWrite_answers rfl hself hsearch)
        (borrowWrite_borrows rfl) hrange).imp (fun hruns => ?_) fun hpanics =>
          ⟨hpanics.1, Panics.bind hpanics.2⟩
      simp only [Call.perform, if_true, tryLockWrite, runs_bind]
      exact hruns.mono fun r w hw => runs_pure.mpr ⟨r, rfl, hw⟩
  | false =>
      refine (tryLockWith_settles h hregular (tryLockRead_answers rfl hsearch)
        (borrowRead_borrows rfl) hrange).imp (fun hruns => ?_) fun hpanics =>
          ⟨hpanics.1, Panics.bind hpanics.2⟩
      simp only [Call.perform, Bool.false_eq_true, if_false, tryLockRead, runs_bind]
      exact hruns.mono fun r w hw => runs_pure.mpr ⟨r, rfl, hw⟩

/-! ## Unlocking -/

/-- What is known in the loop of `unlock_*_inner` that releases `p`, when the tables were `tables`
at the beginning. -/
structure Rounds (debug : Bool) (core : Addr) (p : LockPtr)
    (tables : Tables Index Priority InProgress)
    (visits : List (LockPtr × Pending Index Priority InProgress))
    (σ : System Index Priority InProgress) : Prop where
  releases : (σ.tables core).Releases p visits
  releasing : debug = true → (σ.tables core).Releasing True p visits
  requests : ∀ q, (σ.tables core).requestOf q = (tables core).requestOf q
  others : ∀ c, c ≠ core → σ.tables c = tables c

theorem rounds_visits : Visits stray debug core p (Rounds debug core p tables) where
  releases _ _ h := h.releases
  round x visits σ store log h hmodels := by
    have hself := Function.update_self core ((σ.tables core).truncate p x.2.range.start) σ.tables
    have hsearch : Searches debug core x.1 x.2.range
        (⟨store, log⟩ : World Index Priority InProgress) (Answers debug
          (Function.update σ.tables core ((σ.tables core).truncate p x.2.range.start) core) x.1
          x.2.range) := by
      refine searches_answers hmodels fun hd => ?_
      have hsound := (h.releasing hd).truncate
      have hx : x ∈ ((σ.tables core).truncate p x.2.range.start).queue := by
        rw [Table.truncate_queue]
        exact (h.releasing hd).mem_queue
      obtain ⟨l, -, hrange, hwf, hlt⟩ := hsound.exists_lock hx
      refine ⟨hself.symm ▸ hsound, ?_⟩
      rw [hrange]
      exact hlt (hwf.nonempty (Or.inl trivial))
    rw [hself] at hsearch
    refine hsearch.mono fun _ _ hr => hr.mono fun r w hr' => ⟨hr'.1, ?_⟩
    have hr := hr'.2
    refine ⟨?_, fun hd => ?_, fun q => ?_, fun c hc => ?_⟩
    · rw [System.visitAt_tables, Function.update_self]
      exact h.releases.visitAt hr.le
    · rw [hr.precise hd, System.visitAt_tables, Function.update_self]
      exact (h.releasing hd).visit
    · rw [System.visitAt_tables, Function.update_self, ← h.requests q]
      simp [Table.visitAt]
    · rw [System.visitAt_tables, Function.update_of_ne hc]
      exact h.others c hc

/-- The release begins. -/
theorem Regular.rounds (hregular : Regular debug σ.tables) {l : Lock Index}
    (hl : (σ.tables core).locks p = some l) :
    Rounds debug core p σ.tables (((σ.tables core).dequeue p).waitersOf p)
      (σ.put core ((σ.tables core).dequeue p)) := by
  refine ⟨?_, fun hd => ?_, fun q => ?_, fun c hc => ?_⟩
  · rw [System.put_tables, Function.update_self]
    exact (hregular.coherent.idle core).releases hl
  · rw [System.put_tables, Function.update_self]
    exact ((hregular.good hd).quiet core).releasing hl
  · rw [System.put_tables, Function.update_self, Table.dequeue_requestOf]
  · rw [System.put_tables, Function.update_of_ne hc]

/-- The release ends, and the core gives up `p`. -/
theorem Rounds.settles {l : Lock Index} {σ' : System Index Priority InProgress}
    {w : World Index Priority InProgress} (hrounds : Rounds debug core p σ.tables [] σ')
    (h : SimulatesWith stray world σ) (hregular : Regular debug σ.tables)
    (hl : (σ.tables core).locks p = some l)
    (hw : SimulatesWith stray w (σ'.put core ((σ'.tables core).forget p))) :
    Settles stray debug (Function.update world.store.parent p none) w := by
  have htables : (σ'.put core ((σ'.tables core).forget p)).tables =
      Function.update σ.tables core ((σ'.tables core).forget p) := by
    funext c
    by_cases hc : c = core
    · subst hc
      simp
    · rw [System.put_tables, Function.update_of_ne hc, Function.update_of_ne hc,
        hrounds.others c hc]
  have hnone : ((σ'.tables core).forget p).locks p = none :=
    (Table.forget_locks _ _ _).trans (if_pos rfl)
  have hrequest : ∀ q, q ≠ p →
      ((σ'.tables core).forget p).requestOf q = (σ.tables core).requestOf q := by
    intro q hqp
    rw [← hrounds.requests q, Table.requestOf, Table.forget_locks, if_neg hqp]
    rfl
  have hsub : ∀ q, (((σ'.tables core).forget p).requestOf q).isSome →
      ((σ.tables core).requestOf q).isSome := by
    intro q hq
    by_cases hqp : q = p
    · rw [hqp, Table.requestOf, hnone] at hq
      cases hq
    · rwa [hrequest q hqp] at hq
  refine ⟨_, hw, ?_, ?_⟩
  · rw [htables]
    exact ⟨hregular.coherent.put hrounds.releases.forget hsub,
      fun hd => (hregular.good hd).put (hrounds.releasing hd).forget hsub⟩
  have hparents := hw.models.parents
  rw [htables] at hparents
  refine hparents.unique (h.models.parents.forget hl hnone fun q hqp => ?_)
  have hsome := congrArg Option.isSome (hrequest q hqp)
  rw [Table.requestOf, Table.requestOf, Option.isSome_map, Option.isSome_map] at hsome
  rw [← Option.isSome_iff_exists, ← Option.isSome_iff_exists, hsome]

theorem unlock_settles (h : SimulatesWith stray world σ) (hregular : Regular debug σ.tables)
    {l : Lock Index} (core : Addr) (p : LockPtr) (hl : (σ.tables core).locks p = some l) :
    Runs (Call.perform debug (.unlock core p)) world
      fun _ w => Settles stray debug (Function.update world.store.parent p none) w := by
  have hcoherent := hregular.coherent
  have hinv := hregular.rounds hl
  have hread : p.kind.isWrite = false →
      UnlocksAt stray core p (Rounds debug core p σ.tables) (unlockReadInner debug core p) :=
    fun hp _ _ hw hinv => unlockReadInner_at hp rounds_visits hw hinv
  have hwrite : p.kind.isWrite = true →
      UnlocksAt stray core p (Rounds debug core p σ.tables) (unlockWriteInner debug core p) :=
    fun hp _ _ hw hinv => unlockWriteInner_at hp rounds_visits hw hinv
  obtain ⟨kind, state⟩ := p
  cases kind with
  | read =>
      simp only [Call.perform, unlockRead, runs_bind]
      refine (unlockWith_at (hread rfl) rounds_visits h hcoherent hl hinv).mono ?_
      rintro _ w ⟨σ', hrounds, hw, -⟩
      exact runs_pure.mpr (hrounds.settles h hregular hl hw)
  | write =>
      simp only [Call.perform, unlockWrite, runs_bind]
      refine (unlockWith_at (hwrite rfl) rounds_visits h hcoherent hl hinv).mono ?_
      rintro _ w ⟨σ', hrounds, hw, -⟩
      exact runs_pure.mpr (hrounds.settles h hregular hl hw)
  | tryRead =>
      simp only [Call.perform, unlockTryRead, runs_bind]
      refine (unlockTryWith_at (hread rfl) rounds_visits h hcoherent hl hinv
        (by simp)).mono ?_
      rintro _ w ⟨σ', hrounds, hw, -⟩
      exact runs_pure.mpr (hrounds.settles h hregular hl hw)
  | tryWrite =>
      simp only [Call.perform, unlockTryWrite, runs_bind]
      refine (unlockTryWith_at (hwrite rfl) rounds_visits h hcoherent hl hinv
        (by simp)).mono ?_
      rintro _ w ⟨σ', hrounds, hw, -⟩
      exact runs_pure.mpr (hrounds.settles h hregular hl hw)

/-! ## Inspection -/

theorem inspect_settles (h : SimulatesWith stray world σ) (hregular : Regular debug σ.tables)
    {l : Lock Index} (isWrite : Bool) (core state : Addr) (write : InProgress → InProgress)
    (hl : (σ.tables core).locks (lockPtr isWrite state) = some l) :
    Runs (Call.perform debug (.inspect isWrite core state write)) world
      fun _ w => Settles stray debug world.store.parent w := by
  refine (inspect_returns h hregular.coherent isWrite core state write hl).mono ?_
  rintro _ w ⟨hw, -⟩
  have hsub : ∀ q, (((σ.tables core).write (lockPtr isWrite state) write).requestOf q).isSome →
      ((σ.tables core).requestOf q).isSome := fun _ hq => hq
  refine ⟨_, hw, ⟨hregular.coherent.put ((hregular.coherent.idle core).write _ _) hsub,
    fun hd => (hregular.good hd).put (((hregular.good hd).quiet core).write _ _) hsub⟩, ?_⟩
  exact hw.models.parents.unique (h.models.parents.congr fun q => Iff.rfl)

/-! ## Calls -/

/-- A call returns, or it panics and leaves the memory as it is.  A call on a lock state that is not
in the right hands returns only if it has nothing to do with it. -/
theorem Call.settles (h : SimulatesWith stray world σ) (hregular : Regular debug σ.tables)
    (call : Call Index Priority InProgress) (hcore : ∀ p, stray.parent p ≠ some call.core) :
    Runs (call.perform debug) world (fun reply w =>
      Settles stray debug (call.claims world.store.parent reply) w ∧
        (call.Misfit world.store.parent → reply = .locked false ∧ w = world)) ∨
    ∃ message, call.Complains debug world.store.parent message ∧
      Panics (call.perform debug) world message fun w =>
        w.store = world.store ∧ Settles stray debug world.store.parent w := by
  have hself : Settles stray debug world.store.parent world := ⟨σ, h, hregular, rfl⟩
  have hpanics : ∀ {message}, call.Complains debug world.store.parent message →
      Panics (call.perform debug) world message (· = world) →
      ∃ message, call.Complains debug world.store.parent message ∧
        Panics (call.perform debug) world message fun w =>
          w.store = world.store ∧ Settles stray debug world.store.parent w := by
    intro message hmessage hrun
    refine ⟨message, hmessage, hrun.mono ?_⟩
    rintro _ rfl
    exact ⟨rfl, hself⟩
  have htable : ∀ p, world.store.parent p = some call.core →
      ∃ l, (σ.tables call.core).locks p = some l := fun p hp => h.models.tabled hcore hp
  by_cases hrejected : debug = true ∧ ¬ call.Accepted Nonempty
  · obtain ⟨rfl, hempty⟩ := hrejected
    exact Or.inr (hpanics (Or.inr ⟨rfl, hempty, rfl⟩) (Call.rejects hempty world))
  have haccepted : debug = true → call.Accepted Nonempty := fun hd =>
    not_not.mp fun hempty => hrejected ⟨hd, hempty⟩
  cases call with
  | lock isWrite core state range priority inProgress =>
      by_cases hp : world.store.parent (lockPtr isWrite state) = none
      · exact Or.inl ((lock_settles h hregular isWrite core state haccepted hp priority
          inProgress).mono fun _ _ hw => ⟨hw, fun hmisfit => absurd hp hmisfit⟩)
      · refine Or.inr ⟨stillInUse, Or.inl ⟨hp, rfl⟩, ?_⟩
        have hsearch : Searches debug core (lockPtr isWrite state) range world
            (Answers debug (σ.tables core) (lockPtr isWrite state) range) :=
          searches_answers h.models fun hd =>
            ⟨(hregular.good hd).quiet core |>.toSound, haccepted hd⟩
        have hnoted : ∀ w, (∃ r, Answers debug (σ.tables core) (lockPtr isWrite state) range r ∧
            w = world.note (lockEvent r (lockPtr isWrite state) inProgress)) →
            w.store = world.store ∧ Settles stray debug world.store.parent w := by
          rintro _ ⟨r, -, rfl⟩
          refine ⟨rfl, σ.note (lockEvent r (lockPtr isWrite state) inProgress), h.note ?_, hregular,
            rfl⟩
          cases r with
          | none => exact .lockComplete _
          | some i => exact .inProgress _ _
        have hused := Option.isSome_iff_ne_none.mpr hp
        cases isWrite with
        | true =>
            exact Panics.bind ((lockWith_panics_at (lockWrite_answers rfl hsearch) haccepted hused
              priority ⟨(false, inProgress), true⟩).mono hnoted)
        | false =>
            exact Panics.bind ((lockWith_panics_at (lockRead_answers rfl hsearch) haccepted hused
              priority ⟨(false, inProgress), true⟩).mono hnoted)
  | tryLock isWrite core state range =>
      rcases tryLock_settles h hregular isWrite core state haccepted with hruns | ⟨hmisfit, hrun⟩
      · refine Or.inl (hruns.mono ?_)
        rintro _ w ⟨complete, rfl, hw, hfail⟩
        refine ⟨?_, fun hmisfit => ⟨congrArg _ (hfail hmisfit).1, (hfail hmisfit).2⟩⟩
        cases complete with
        | true => exact hw
        | false => exact hw
      · exact Or.inr (hpanics (Or.inl ⟨hmisfit, rfl⟩) hrun)
  | unlock core p =>
      by_cases hp : world.store.parent p = some core
      · obtain ⟨l, hl⟩ := htable p hp
        exact Or.inl ((unlock_settles h hregular core p hl).mono
          fun _ _ hw => ⟨hw, fun hmisfit => absurd hp hmisfit⟩)
      · exact Or.inr (hpanics (Or.inl ⟨hp, rfl⟩) (unlock_panics core p hp))
  | inspect isWrite core state write =>
      by_cases hp : world.store.parent (lockPtr isWrite state) = some core
      · obtain ⟨l, hl⟩ := htable _ hp
        exact Or.inl ((inspect_settles h hregular isWrite core state write hl).mono
          fun _ _ hw => ⟨hw, fun hmisfit => absurd hp hmisfit⟩)
      · exact Or.inr (hpanics (Or.inl ⟨hp, rfl⟩) (inspect_panics isWrite core state write hp))

/-! ## Runs -/

theorem Stray.none_parent (p : LockPtr) : Stray.none.parent p ≠ some core := by
  intro hp
  cases hp

/-- The run of a caller who passes any ranges and any lock states. -/
theorem World.Run.settles {misuse : Prop} (run : World.Run debug misuse (fun _ _ => True) world) :
    Settles .none debug world.store.parent world := by
  induction run with
  | init =>
      exact ⟨.init, ⟨ModelsWith.init, List.Forall₂.nil⟩,
        ⟨⟨fun _ => Table.empty_idle, fun _ _ _ _ _ hl => by cases hl⟩,
          fun _ => ⟨fun _ => Table.empty_quiet, fun _ _ _ _ _ hl => by cases hl⟩⟩, rfl⟩
  | step _ step ih =>
      obtain ⟨σ, hσ, hregular, -⟩ := ih
      cases step with
      | @returned call reply w _ hperform =>
          rcases Call.settles hσ hregular call Stray.none_parent with hruns | hpanics
          · obtain ⟨⟨σ', hσ', hregular', -⟩, -⟩ := (runs_of_eq hperform).mp hruns
            exact ⟨_, hσ'.note (.returned call reply hσ'.models), hregular', rfl⟩
          · obtain ⟨message, -, w', hperform', -⟩ := hpanics
            rw [hperform] at hperform'
            cases hperform'
      | @panicked _ call message w _ hperform =>
          rcases Call.settles hσ hregular call Stray.none_parent with hruns | hpanics
          · obtain ⟨reply, w', hperform', -⟩ := hruns
            rw [hperform] at hperform'
            cases hperform'
          · obtain ⟨message', -, w', hperform', -, σ', hσ', hregular', -⟩ := hpanics
            rw [hperform] at hperform'
            cases hperform'
            exact ⟨_, hσ'.note (.panicked call), hregular', rfl⟩

/-- Whatever ranges and lock states a caller passes, the trees link the nodes in the lock states of
their core and no others, each lock state is in a row of the table, `Drop` panics if and only if the
core is locked, and the next call returns or panics for a reason that its caller can see.  No call
reaches a dead node, an assertion that its arguments do not violate, or a loop that does not end. -/
theorem World.Run.memory_safe {misuse : Prop}
    (run : World.Run debug misuse (fun _ _ => True) world) :
    (∀ p, world.store.Row p) ∧
    (∀ core, world.store.Links readNodeCallback (world.store.readTree core) Prod.fst core ∧
      world.store.Links writeNodeCallback (world.store.writeTree core) id core ∧
      world.store.Links pendingNodeCallback (world.store.pendingTree core) id core) ∧
    (∀ core, (world.store.cores core).locked = true ↔ ∃ p, world.store.parent p = some core) ∧
    ∀ call : Call Index Priority InProgress,
      (∃ reply w, call.perform debug world = .ok reply w ∧
        (call.Misfit world.store.parent → reply = .locked false ∧ w = world)) ∨
      ∃ message w, call.Complains debug world.store.parent message ∧
        call.perform debug world = .error (.panic message) w ∧ w.store = world.store := by
  obtain ⟨σ, hσ, hregular, -⟩ := run.settles
  have hmodels : Models σ.tables world.store := hσ.models
  have hcoherent := hregular.coherent
  refine ⟨hmodels.row_of_coherent hcoherent, fun core => ⟨hmodels.links_reads core,
    hmodels.links_writes core, hmodels.links_pendings_of_linked
      (fun c => (hcoherent.idle c).toWellLinked) core⟩, fun core => ?_, fun call => ?_⟩
  · have hroots := hmodels.roots_eq_none_of_idle (hcoherent.idle core)
    rw [← Roots.locked_eq_false, ← not_exists] at hroots
    rw [← Bool.not_eq_false, hroots, not_not]
  · rcases Call.settles hσ hregular call Stray.none_parent with hruns | hpanics
    · obtain ⟨reply, w, hperform, -, hmisfit⟩ := hruns
      exact Or.inl ⟨reply, w, hperform, hmisfit⟩
    · obtain ⟨message, hcomplains, w, hperform, hstore, -⟩ := hpanics
      exact Or.inr ⟨message, w, hcomplains, hperform, hstore⟩

end Parts

/-- Without debug assertions: a writer of a range that ends before it starts, a writer, an empty
reader inside of it, a writer that waits, and the first one is unlocked. -/
def careless (core first second third fourth : Addr) : List (Call ℕ ℕ ℕ) :=
  [.lock true core first ⟨7, 3⟩ 0 100, .tryLock true core second ⟨0, 10⟩,
    .lock false core third ⟨4, 4⟩ 0 101, .lock true core fourth ⟨2, 8⟩ 0 102,
    .unlock core (lockPtr true first)]

theorem memory_safe_careless : ∃ world : World ℕ ℕ ℕ,
    world = World.after false (careless (slot 0) (slot 1) (slot 2) (slot 3) (slot 4)) ∧
    (∀ p, world.store.Row p) ∧
    (∀ core, world.store.Links readNodeCallback (world.store.readTree core) Prod.fst core ∧
      world.store.Links writeNodeCallback (world.store.writeTree core) id core ∧
      world.store.Links pendingNodeCallback (world.store.pendingTree core) id core) ∧
    (∀ core, (world.store.cores core).locked = true ↔ ∃ p, world.store.parent p = some core) ∧
    ∀ call : Call ℕ ℕ ℕ,
      (∃ reply w, call.perform false world = .ok reply w ∧
        (call.Misfit world.store.parent → reply = .locked false ∧ w = world)) ∨
      ∃ message w, call.Complains false world.store.parent message ∧
        call.perform false world = .error (.panic message) w ∧ w.store = world.store := by
  set calls := careless (slot 0) (slot 1) (slot 2) (slot 3) (slot 4) with hcalls
  have haccepted : ∀ call ∈ calls, call.Accepted fun _ _ => True := by
    intro call _
    cases call <;> exact trivial
  have hrun : World.Run false True (fun _ _ => True) (World.after false calls) :=
    World.run_after haccepted (by decide +kernel)
  exact ⟨_, rfl, hrun.memory_safe⟩

end Interlock.Core
