import Interlock.Core.Calls
import Interlock.Hl.Slice

/-!
# The elements of a slice

`hl/slice.rs`: the lock with its container, whose elements are accessed through the guards.  The
lock keeps a pointer to the elements; it gets it from `Container::deref_mut`, when it is made and
whenever the container is replaced or updated.  A guard points into the slice that the lock pointed
to when the guard was made.

A guard may be forgotten.  Its range stays locked, but the exclusive access that the methods for the
container need no longer depends on it.
-/

namespace Interlock.Hl

open Interlock.Core Interlock.Memory Interlock.RbTree

/-! ## The lock -/

/-- `NonNull<[Element]>`: elements of an allocation. -/
structure SlicePtr where
  allocation : ℕ
  offset : ℕ
  len : ℕ
  deriving DecidableEq

/-- An address of an element. -/
abbrev Cell := ℕ × ℕ

/-- The address of the element with this index. -/
def SlicePtr.cell (ptr : SlicePtr) (i : ℕ) : Cell := (ptr.allocation, ptr.offset + i)

theorem SlicePtr.cell_inj {ptr : SlicePtr} {i j : ℕ} (h : ptr.cell i = ptr.cell j) : i = j :=
  Nat.add_left_cancel (Prod.mk.inj h).2

structure SliceIntervalRwLock (Container Priority InProgress : Type) where
  container : Container
  raw : State Priority InProgress
  ptr : SlicePtr

namespace SliceIntervalRwLock
variable {Container Priority InProgress : Type} (derefMut : Container → SlicePtr)
  (self : SliceIntervalRwLock Container Priority InProgress)

/-- If `deref_mut` does not panic. -/
def new (container : Container) : SliceIntervalRwLock Container Priority InProgress :=
  ⟨container, .init, derefMut container⟩

/-- Replace the contained `Container` with another one, returning the old one.  `panics` says that
`deref_mut` panics. -/
def replaceContainer (container : Container) (panics : Bool) :
    Option Container × SliceIntervalRwLock Container Priority InProgress :=
  if panics then (none, self)
  else (some self.container, { self with container, ptr := derefMut container })

/-- How `update_container` ends, other than by an abort. -/
inductive Ending where
  | returned
  | panicked

/-- The closure leaves `container` behind, and may panic; the pointer is updated in any case.  If
`deref_mut` panics as well, that is the end. -/
def updateContainer (container : Container) (updaterPanics derefPanics : Bool) :
    Option (Ending × SliceIntervalRwLock Container Priority InProgress) :=
  if derefPanics then
    if updaterPanics then none
    else some (.panicked, { self with container })
  else some (if updaterPanics then .panicked else .returned,
    { self with container, ptr := derefMut container })

/-- The number of elements in the underlying slice. -/
def len : ℕ := self.ptr.len

end SliceIntervalRwLock

/-! ## Runs -/

/-- The lock, the memory, and the guards. -/
structure Scene (Container Element Priority InProgress : Type) where
  lock : SliceIntervalRwLock Container Priority InProgress
  /-- Where the lock pointed to when the lock state was borrowed. -/
  base : LockPtr → SlicePtr
  /-- The guard, or the future, has been passed to `mem::forget`. -/
  forgotten : LockPtr → Bool
  memory : Cell → Option Element

namespace Scene
variable {Container Element Priority InProgress : Type} (derefMut : Container → SlicePtr)
  (s : Scene Container Element Priority InProgress)

/-- A new lock on a container whose elements exist. -/
def start (container : Container) (memory : Cell → Option Element) :
    Scene Container Element Priority InProgress :=
  ⟨.new derefMut container, fun _ => ⟨0, 0, 0⟩, fun _ => false, memory⟩

/-- The elements that a slice pointer points to exist. -/
def Live (memory : Cell → Option Element) (ptr : SlicePtr) : Prop :=
  ∀ i < ptr.len, memory (ptr.cell i) ≠ none

/-- The range of a guard that has not been forgotten. -/
def guard (p : LockPtr) : Option (Range ℕ) :=
  match s.lock.raw.borrows p with
  | some ⟨.guard, ptr⟩ => if s.forgotten p then none else some ptr
  | _ => none

/-- What is found through the guard of `p` at index `i` of the slice. -/
def element (p : LockPtr) (i : ℕ) : Option Element := s.memory ((s.base p).cell i)

/-- Nobody borrows the lock: neither calls that wait, nor futures, nor guards. -/
def Unborrowed : Prop := ∀ p, s.lock.raw.borrows p ≠ none → s.forgotten p = true

/-- The core has made a step.  Who has begun to borrow a lock state points where the lock points
to. -/
def withRaw (raw : State Priority InProgress) : Scene Container Element Priority InProgress :=
  { s with
    lock := { s.lock with raw }
    base := fun p => if s.lock.raw.borrows p = none then s.lock.ptr else s.base p }

variable [LinearOrder Priority] (debug : Bool) (core : Addr) (stale : Prop)

/-- A step, with the guard that makes it. -/
inductive Step (s : Scene Container Element Priority InProgress) :
    Option LockPtr → Scene Container Element Priority InProgress → Prop where
  | attempt (a : Attempt Priority InProgress) {raw : State Priority InProgress}
      (haccepted : debug = false → a.isWrite = true → a.range.start < a.range.stop)
      (h : s.lock.raw.attempt debug core s.lock.len a = some raw) : Step s none (s.withRaw raw)
  | wake (p : LockPtr) {raw : State Priority InProgress} (h : s.lock.raw.wake p = some raw) :
      Step s none (s.withRaw raw)
  | poll (isWrite : Bool) (state : Addr) (setWaker : InProgress → InProgress)
      {raw : State Priority InProgress} (hforgotten : s.forgotten (lockPtr isWrite state) = false)
      (h : s.lock.raw.poll debug core isWrite state setWaker = some raw) :
        Step s none (s.withRaw raw)
  | drop (p : LockPtr) {raw : State Priority InProgress} (hforgotten : s.forgotten p = false)
      (h : s.lock.raw.drop debug core p = some raw) : Step s (some p) (s.withRaw raw)
  | forget (p : LockPtr) {borrow : Borrow} (hp : s.lock.raw.borrows p = some borrow)
      (hborrower : borrow.borrower ≠ .call) :
      Step s (some p) { s with forgotten := Function.update s.forgotten p true }
  /-- A write through the result of `DerefMut::deref_mut` for the guard of `p`. -/
  | write (p : LockPtr) {ptr : Range ℕ} (i : ℕ) (x : Element) (hwrite : p.kind.isWrite = true)
      (hp : s.guard p = some ptr) (hi : ptr.start ≤ i ∧ i < ptr.stop) :
      Step s (some p) { s with memory := Function.update s.memory ((s.base p).cell i) (some x) }
  | replaceContainer (container : Container) (panics : Bool) (hborrow : s.Unborrowed)
      (hlive : panics = false → Live s.memory (derefMut container)) :
      Step s none { s with lock := (s.lock.replaceContainer derefMut container panics).2 }
  /-- The closure may change the memory.  `stale` permits `deref_mut` to panic. -/
  | updateContainer (container : Container) (memory : Cell → Option Element)
      (updaterPanics derefPanics : Bool) {ending : SliceIntervalRwLock.Ending}
      {lock : SliceIntervalRwLock Container Priority InProgress} (hborrow : s.Unborrowed)
      (hlive : Live memory (derefMut container)) (hstale : derefPanics = true → stale)
      (h : s.lock.updateContainer derefMut container updaterPanics derefPanics =
        some (ending, lock)) :
      Step s none { s with lock, memory }
  /-- A write through the result of `get_mut`. -/
  | getMut (i : ℕ) (x : Element) (hborrow : s.Unborrowed) (hi : i < s.lock.len) :
      Step s none { s with memory := Function.update s.memory (s.lock.ptr.cell i) (some x) }
  /-- The rest of the program leaves the elements of the container alone. -/
  | other (memory : Cell → Option Element)
      (hsame : ∀ i < (derefMut s.lock.container).len,
        memory ((derefMut s.lock.container).cell i) =
          s.memory ((derefMut s.lock.container).cell i)) :
      Step s none { s with memory }

/-- The states that can be reached. -/
inductive Run : Scene Container Element Priority InProgress → Prop where
  | start (container : Container) (memory : Cell → Option Element)
      (hlive : Live memory (derefMut container)) : Run (start derefMut container memory)
  | step {s actor s'} (run : Run s) (step : Step derefMut debug core stale s actor s') : Run s'

/-- Some steps, none of which the guard of `p` makes. -/
def Meanwhile (p : LockPtr) :
    Scene Container Element Priority InProgress →
      Scene Container Element Priority InProgress → Prop :=
  Relation.ReflTransGen fun s s' => ∃ actor, actor ≠ some p ∧
    Step derefMut debug core stale s actor s'

end Scene

/-! ## Steps of the core -/

section Raw
variable {Priority InProgress : Type} [LinearOrder Priority] {debug : Bool} {core : Addr} {len : ℕ}
  {range : Range ℕ} {a : Attempt Priority InProgress}
  {s s' : State Priority InProgress} {p : LockPtr}
  {store : Store ℕ Priority InProgress} {world : World ℕ Priority InProgress}

omit [LinearOrder Priority] in
/-- What comes after the check of the range is done with the range. -/
theorem runs_slice {α : Type} {f : Range ℕ → CoreM ℕ Priority InProgress α}
    {post : α → World ℕ Priority InProgress → Prop} (h : Runs (slice len range >>= f) world post) :
    (range.start ≤ range.stop ∧ range.stop ≤ len) ∧ Runs (f range) world post := by
  unfold slice at h
  split at h
  · next hrange => exact ⟨hrange, h⟩
  · obtain ⟨a, w, hrun, -⟩ := h
    cases hrun

omit [LinearOrder Priority] in
/-- What an operation makes of the pointer, once the core has been asked. -/
theorem runs_slice_pure {α β γ : Type} {lock : CoreM ℕ Priority InProgress α} {g : Range ℕ → α → β}
    {ofResult : β → γ} {post : γ → World ℕ Priority InProgress → Prop}
    (h : Runs (ofResult <$> (slice len range >>= fun ptr => lock >>= fun a => pure (g ptr a)))
      world post) :
    (range.start ≤ range.stop ∧ range.stop ≤ len) ∧ ∃ a w, post (ofResult (g range a)) w := by
  rw [runs_map] at h
  obtain ⟨hrange, hruns⟩ := runs_slice h
  rw [runs_bind] at hruns
  obtain ⟨a, w, -, hpost⟩ := hruns
  rw [runs_pure] at hpost
  exact ⟨hrange, a, w, hpost⟩

/-- A pointer that an attempt returns points to the elements of its range, which lies in the
slice. -/
theorem Attempt.in_bounds {outcome : Outcome} {w : World ℕ Priority InProgress}
    (h : a.perform debug core len world = .ok outcome w) {borrow : Borrow}
    (houtcome : outcome = .borrowed p borrow) :
    borrow.ptr = a.range ∧ a.range.start ≤ a.range.stop ∧ a.range.stop ≤ len := by
  have hruns : Runs (a.perform debug core len) world fun o _ => o = .borrowed p borrow :=
    ⟨outcome, w, h, houtcome⟩
  have htry : ∀ {lockState tryLock}, Runs (Outcome.ofTry <$> tryWith len lockState tryLock a.range)
      world (fun o _ => o = .borrowed p borrow) →
      borrow.ptr = a.range ∧ a.range.start ≤ a.range.stop ∧ a.range.stop ≤ len := by
    intro lockState tryLock hruns
    have hpure : tryWith len lockState tryLock a.range = slice len a.range >>= fun ptr =>
        tryLock >>= fun success => pure
          (if success then .ok ⟨lockState, ptr⟩ else .error .wouldBlock) := by
      unfold tryWith
      refine bind_congr fun ptr => bind_congr fun success => ?_
      cases success <;> rfl
    rw [hpure] at hruns
    obtain ⟨hrange, success, -, heq⟩ := runs_slice_pure hruns
    cases success with
    | true =>
        cases heq
        exact ⟨rfl, hrange⟩
    | false => cases heq
  have hstart : ∀ {lockState lock}, Runs (Outcome.ofStart <$> startWith len lockState lock a.range)
      world (fun o _ => o = .borrowed p borrow) →
      borrow.ptr = a.range ∧ a.range.start ≤ a.range.stop ∧ a.range.stop ≤ len := by
    intro lockState lock hruns
    obtain ⟨hrange, complete, -, heq⟩ := runs_slice_pure hruns
    cases heq
    exact ⟨rfl, hrange⟩
  have hasync : ∀ {lockState lock}, Runs (Outcome.ofAsync <$> asyncWith len lockState lock a.range)
      world (fun o _ => o = .borrowed p borrow) →
      borrow.ptr = a.range ∧ a.range.start ≤ a.range.stop ∧ a.range.stop ≤ len := by
    intro lockState lock hruns
    obtain ⟨hrange, complete, -, heq⟩ := runs_slice_pure hruns
    cases heq
    exact ⟨rfl, hrange⟩
  cases a with
  | tryRead | tryWrite => exact htry hruns
  | read | write => exact hstart hruns
  | asyncRead | asyncWrite => exact hasync hruns

/-- An operation in which the core is asked for an empty range. -/
theorem ends_rejected {α β : Type} (call : Call ℕ Priority InProgress)
    {lock : CoreM ℕ Priority InProgress α} {ofResult : α → Reply InProgress} {ofGuard : β → Outcome}
    {rest : Range ℕ → α → CoreM ℕ Priority InProgress β}
    (hcall : call.perform true = ofResult <$> lock)
    (hempty : ¬ call.Accepted Core.Nonempty) :
    Ends (ofGuard <$> (slice len range >>= fun ptr => lock >>= rest ptr)) store fun _ _ =>
      False := by
  have hpanics := Call.rejects hempty ⟨store, []⟩
  rw [hcall, panics_map] at hpanics
  apply Ends.map.mpr
  apply ends_slice
  intro _
  left
  exact ⟨_, (hpanics.mono fun w hw => congrArg World.store hw).bind⟩

/-- With debug assertions, an attempt with an empty range panics. -/
theorem Attempt.rejected (hempty : ¬ a.range.start < a.range.stop) :
    Ends (a.perform true core len) store fun _ _ => False := by
  cases a with
  | tryRead range state =>
      exact ends_rejected (.tryLock false core state range) (map_eq_pure_bind _ _).symm hempty
  | tryWrite range state =>
      exact ends_rejected (.tryLock true core state range) (map_eq_pure_bind _ _).symm hempty
  | read range priority state inProgress | asyncRead range priority state inProgress =>
      exact ends_rejected (.lock false core state range priority inProgress)
        (map_eq_pure_bind _ _).symm hempty
  | write range priority state inProgress | asyncWrite range priority state inProgress =>
      exact ends_rejected (.lock true core state range priority inProgress)
        (map_eq_pure_bind _ _).symm hempty

/-- An attempt borrows its lock state, if nobody has borrowed it before, or changes no borrow. -/
theorem State.Valid.attempt_cases (h : s.Valid (debug = true) core)
    (haccepted : debug = false → a.isWrite = true → a.range.start < a.range.stop)
    (hs' : s.attempt debug core len a = some s') :
    s'.Valid (debug = true) core ∧ (s'.borrows = s.borrows ∨ ∃ borrower,
      s.borrows a.lockState = none ∧ (a.range.start ≤ a.range.stop ∧ a.range.stop ≤ len) ∧
      s'.borrows = Function.update s.borrows a.lockState (some ⟨borrower, a.range⟩)) := by
  by_cases hrejected : debug = true ∧ ¬ a.range.start < a.range.stop
  · obtain ⟨rfl, hempty⟩ := hrejected
    rcases Attempt.rejected hempty with ⟨message, w, hrun, hstore⟩ | ⟨outcome, w, -, hfalse⟩
    · rw [State.attempt, hrun] at hs'
      obtain rfl := Option.some.inj hs'
      rw [hstore]
      exact ⟨h, Or.inl rfl⟩
    · exact hfalse.elim
  have haccepted : debug = true ∨ a.isWrite = true → a.range.start < a.range.stop := by
    intro hstrict
    cases debug with
    | true => exact not_not.mp fun hempty => hrejected ⟨rfl, hempty⟩
    | false => exact haccepted rfl (hstrict.resolve_left Bool.false_ne_true)
  refine ⟨h.attempt id haccepted hs', ?_⟩
  obtain ⟨tables, hmodels, hgood, htracked⟩ := h
  rcases Attempt.ends hmodels hgood id core len haccepted with
    ⟨message, w, hrun, -⟩ | ⟨outcome, w, hrun, tables', -, -, hof⟩
  · rw [State.attempt, hrun] at hs'
    obtain rfl := Option.some.inj hs'
    exact Or.inl rfl
  · rw [State.attempt, hrun] at hs'
    obtain rfl := Option.some.inj hs'
    cases outcome with
    | wouldBlock => exact Or.inl rfl
    | borrowed lockState borrow =>
        obtain ⟨rfl, hlocks⟩ := hof
        obtain ⟨hptr, hrange⟩ := Attempt.in_bounds hrun rfl
        have hfree := htracked.request a.lockState
        rw [hlocks.fresh] at hfree
        refine Or.inr ⟨borrow.borrower, Option.map_eq_none_iff.mp hfree.symm, hrange, ?_⟩
        rw [← hptr]
        rfl

omit [LinearOrder Priority] in
theorem State.wake_cases (hs' : s.wake p = some s') : ∃ ptr, s.borrows p = some ⟨.call, ptr⟩ ∧
    s'.borrows = Function.update s.borrows p (some ⟨.guard, ptr⟩) := by
  unfold State.wake at hs'
  split at hs'
  · next ptr hp =>
      split at hs'
      · cases hs'
      · obtain rfl := Option.some.inj hs'
        exact ⟨ptr, hp, rfl⟩
  · cases hs'

theorem State.poll_cases {isWrite : Bool} {state : Addr} {setWaker : InProgress → InProgress}
    (hs' : s.poll debug core isWrite state setWaker = some s') :
    ∃ ptr, s.borrows (lockPtr isWrite state) = some ⟨.future, ptr⟩ ∧ (s'.borrows = s.borrows ∨
      s'.borrows = Function.update s.borrows (lockPtr isWrite state) (some ⟨.guard, ptr⟩)) := by
  unfold State.poll at hs'
  split at hs'
  · next ptr hp =>
      refine ⟨ptr, hp, ?_⟩
      split at hs'
      · obtain rfl := Option.some.inj hs'
        exact Or.inr rfl
      · obtain rfl := Option.some.inj hs'
        exact Or.inl rfl
      · cases hs'
  · cases hs'

theorem State.drop_cases (hs' : s.drop debug core p = some s') :
    s.borrows p ≠ none ∧ s'.borrows = Function.update s.borrows p none := by
  unfold State.drop at hs'
  split at hs'
  · next hp =>
      split at hs'
      · obtain rfl := Option.some.inj hs'
        exact ⟨by rw [hp]; simp, rfl⟩
      · cases hs'
  · next hp =>
      split at hs'
      · obtain rfl := Option.some.inj hs'
        exact ⟨by rw [hp]; simp, rfl⟩
      · cases hs'
  · cases hs'

theorem State.Valid.disjoint {strict : Prop} (h : s.Valid strict core) {q : LockPtr}
    {ptr ptr' : Range ℕ} (hne : p ≠ q) (hwrite : p.kind.isWrite = true)
    (hp : s.borrows p = some ⟨.guard, ptr⟩) (hq : s.borrows q = some ⟨.guard, ptr'⟩) :
    Disjoint (elements ptr) (elements ptr') := by
  obtain ⟨tables, -, hgood, htracked⟩ := h
  have hquiet := hgood.quiet core
  obtain ⟨l, hl, hholds⟩ := htracked.holds hquiet hp
  obtain ⟨l', hl', hholds'⟩ := htracked.holds hquiet hq
  have hconf : conflicting p q = true := by rw [conflicting, hwrite, Bool.true_or]
  apply Set.disjoint_left.mpr
  intro i hi hi'
  exact hquiet.exclusive p l i hl ((hholds i).mp hi) q l' (Ne.symm hne) hl' hconf
    ((hholds' i).mp hi')

end Raw

/-! ## The invariant -/

namespace Scene
variable {Container Element Priority InProgress : Type} [LinearOrder Priority]
  {derefMut : Container → SlicePtr} {debug : Bool} {core : Addr}
  {s s' : Scene Container Element Priority InProgress} {p : LockPtr} {ptr : Range ℕ}
  {actor : Option LockPtr}

/-- The lock points to the elements of its container, and so do those who borrow it. -/
structure Sound (derefMut : Container → SlicePtr) (debug : Bool) (core : Addr)
    (s : Scene Container Element Priority InProgress) : Prop where
  valid : s.lock.raw.Valid (debug = true) core
  current : s.lock.ptr = derefMut s.lock.container
  live : Live s.memory s.lock.ptr
  borrowed : ∀ p borrow, s.lock.raw.borrows p = some borrow → s.forgotten p = false →
    s.base p = s.lock.ptr ∧ borrow.ptr.start ≤ borrow.ptr.stop ∧ borrow.ptr.stop ≤ s.lock.ptr.len
  forgotten : ∀ p, s.forgotten p = true → s.lock.raw.borrows p ≠ none

omit [LinearOrder Priority] in
theorem guard_eq_some : s.guard p = some ptr ↔
    s.lock.raw.borrows p = some ⟨.guard, ptr⟩ ∧ s.forgotten p = false := by
  unfold guard
  constructor
  · intro h
    split at h
    · next hp =>
        split at h
        · cases h
        · next hforgotten =>
            obtain rfl := Option.some.inj h
            exact ⟨hp, by simpa using hforgotten⟩
    · cases h
  · intro h
    obtain ⟨hp, hforgotten⟩ := h
    rw [hp]
    simp [hforgotten]

omit [LinearOrder Priority] in
theorem Live.update {memory : Cell → Option Element} {slice : SlicePtr} (h : Live memory slice)
    (cell : Cell) (x : Element) : Live (Function.update memory cell (some x)) slice := by
  intro i hi
  by_cases hcell : slice.cell i = cell
  · rw [hcell, Function.update_self]
    simp
  · rw [Function.update_of_ne hcell]
    exact h i hi

/-- The core makes a step in which nobody but `q` borrows, or stops to borrow. -/
theorem Sound.withRaw {raw : State Priority InProgress} (h : s.Sound derefMut debug core)
    (hvalid : raw.Valid (debug = true) core)
    (hborrows : ∀ p borrow, raw.borrows p = some borrow →
      (∃ borrow', s.lock.raw.borrows p = some borrow' ∧ borrow'.ptr = borrow.ptr) ∨
      s.lock.raw.borrows p = none ∧ borrow.ptr.start ≤ borrow.ptr.stop ∧
        borrow.ptr.stop ≤ s.lock.ptr.len)
    (hforgotten : ∀ p, s.forgotten p = true → raw.borrows p ≠ none) :
    (s.withRaw raw).Sound derefMut debug core := by
  refine ⟨hvalid, h.current, h.live, fun p borrow hp hnot => ?_, hforgotten⟩
  show (if s.lock.raw.borrows p = none then s.lock.ptr else s.base p) = s.lock.ptr ∧ _
  rcases hborrows p borrow hp with ⟨borrow', hp', hptr⟩ | ⟨hnone, hrange⟩
  · obtain ⟨hbase, hrange⟩ := h.borrowed p borrow' hp' hnot
    rw [hp', if_neg (Option.some_ne_none _)]
    exact ⟨hbase, hptr ▸ hrange⟩
  · rw [if_pos hnone]
    exact ⟨rfl, hrange⟩

/-- One borrow changes who borrows, and nothing else. -/
theorem Sound.withRaw_update {raw : State Priority InProgress} (h : s.Sound derefMut debug core)
    (hvalid : raw.Valid (debug = true) core) {q : LockPtr} {borrower borrower' : Borrower}
    (hq : s.lock.raw.borrows q = some ⟨borrower, ptr⟩)
    (hborrows : raw.borrows = Function.update s.lock.raw.borrows q (some ⟨borrower', ptr⟩)) :
    (s.withRaw raw).Sound derefMut debug core := by
  refine h.withRaw hvalid (fun p borrow hp => Or.inl ?_) fun p hp => ?_
  · rw [hborrows] at hp
    by_cases hpq : p = q
    · rw [hpq, Function.update_self] at hp
      obtain rfl := Option.some.inj hp
      exact ⟨⟨borrower, ptr⟩, hpq ▸ hq, rfl⟩
    · rw [Function.update_of_ne hpq] at hp
      exact ⟨borrow, hp, rfl⟩
  · rw [hborrows]
    by_cases hpq : p = q
    · rw [hpq, Function.update_self]
      simp
    · rw [Function.update_of_ne hpq]
      exact h.forgotten p hp

theorem Sound.withRaw_same {raw : State Priority InProgress} (h : s.Sound derefMut debug core)
    (hvalid : raw.Valid (debug = true) core) (hborrows : raw.borrows = s.lock.raw.borrows) :
    (s.withRaw raw).Sound derefMut debug core := by
  refine h.withRaw hvalid (fun p borrow hp => Or.inl ⟨borrow, hborrows ▸ hp, rfl⟩) fun p hp => ?_
  rw [hborrows]
  exact h.forgotten p hp

/-- The container is exchanged while nobody borrows the lock. -/
theorem Sound.exchange (h : s.Sound derefMut debug core) (hborrow : s.Unborrowed)
    (container : Container) {memory : Cell → Option Element}
    (hlive : Live memory (derefMut container)) :
    Sound derefMut debug core { s with
      lock := { s.lock with container, ptr := derefMut container }
      memory } where
  valid := h.valid
  current := rfl
  live := hlive
  borrowed p borrow hp hnot := by
    have hforgotten := hborrow p (by rw [hp]; simp)
    rw [hnot] at hforgotten
    cases hforgotten
  forgotten := h.forgotten

theorem Step.sound (h : s.Sound derefMut debug core)
    (step : Step derefMut debug core False s actor s') : s'.Sound derefMut debug core := by
  cases step with
  | attempt a haccepted hraw =>
      obtain ⟨hvalid, hsame | ⟨borrower, hfree, hrange, hborrows⟩⟩ :=
        h.valid.attempt_cases haccepted hraw
      · exact h.withRaw_same hvalid hsame
      · refine h.withRaw hvalid (fun p borrow hp => ?_) fun p hp => ?_
        · rw [hborrows] at hp
          by_cases hpa : p = a.lockState
          · subst hpa
            rw [Function.update_self] at hp
            obtain rfl := Option.some.inj hp
            exact Or.inr ⟨hfree, hrange⟩
          · rw [Function.update_of_ne hpa] at hp
            exact Or.inl ⟨borrow, hp, rfl⟩
        · rw [hborrows]
          by_cases hpa : p = a.lockState
          · rw [hpa, Function.update_self]
            simp
          · rw [Function.update_of_ne hpa]
            exact h.forgotten p hp
  | wake p hraw =>
      obtain ⟨ptr, hp, hborrows⟩ := State.wake_cases hraw
      exact h.withRaw_update (h.valid.wake hraw) hp hborrows
  | poll isWrite state setWaker hforgotten hraw =>
      have hvalid := h.valid.poll hraw
      obtain ⟨ptr, hp, hsame | hborrows⟩ := State.poll_cases hraw
      · exact h.withRaw_same hvalid hsame
      · exact h.withRaw_update hvalid hp hborrows
  | drop p hforgotten hraw =>
      obtain ⟨-, hborrows⟩ := State.drop_cases hraw
      refine h.withRaw (h.valid.drop id hraw) (fun q borrow hq => ?_) fun q hq => ?_
      · rw [hborrows] at hq
        by_cases hqp : q = p
        · rw [hqp, Function.update_self] at hq
          cases hq
        · rw [Function.update_of_ne hqp] at hq
          exact Or.inl ⟨borrow, hq, rfl⟩
      · have hqp : q ≠ p := by
          rintro rfl
          rw [hforgotten] at hq
          cases hq
        rw [hborrows, Function.update_of_ne hqp]
        exact h.forgotten q hq
  | forget p hp hborrower =>
      refine ⟨h.valid, h.current, h.live, fun q borrow hq hnot => ?_, fun q hq => ?_⟩
      · have hnot : Function.update s.forgotten p true q = false := hnot
        have hqp : q ≠ p := by
          rintro rfl
          rw [Function.update_self] at hnot
          cases hnot
        rw [Function.update_of_ne hqp] at hnot
        exact h.borrowed q borrow hq hnot
      · have hq : Function.update s.forgotten p true q = true := hq
        by_cases hqp : q = p
        · subst hqp
          show s.lock.raw.borrows q ≠ none
          rw [hp]
          simp
        · rw [Function.update_of_ne hqp] at hq
          exact h.forgotten q hq
  | write p i x hwrite hp hi =>
      exact ⟨h.valid, h.current, h.live.update _ x, h.borrowed, h.forgotten⟩
  | replaceContainer container panics hborrow hlive =>
      cases panics with
      | true => exact h
      | false => exact h.exchange hborrow container (hlive rfl)
  | updateContainer container memory updaterPanics derefPanics hborrow hlive hstale hupdate =>
      cases derefPanics with
      | true => exact (hstale rfl).elim
      | false =>
          obtain ⟨-, rfl⟩ := Prod.mk.inj (Option.some.inj hupdate)
          exact h.exchange hborrow container hlive
  | getMut i x hborrow hi =>
      exact ⟨h.valid, h.current, h.live.update _ x, h.borrowed, h.forgotten⟩
  | other memory hsame =>
      refine ⟨h.valid, h.current, fun i hi => ?_, h.borrowed, h.forgotten⟩
      have hi : i < s.lock.ptr.len := hi
      have hlive := h.live i hi
      rw [h.current] at hi hlive
      show memory (s.lock.ptr.cell i) ≠ none
      rw [h.current, hsame i hi]
      exact hlive

theorem Run.sound (run : Run derefMut debug core False s) : s.Sound derefMut debug core := by
  induction run with
  | start container memory hlive =>
      refine ⟨State.Valid.init, rfl, hlive, fun p borrow hp => ?_, fun p hp => ?_⟩
      · cases hp
      · cases hp
  | step _ step ih => exact step.sound ih

/-! ## Isolation -/

/-- A guard that does nothing keeps its elements, whatever else happens. -/
theorem Step.keeps (h : s.Sound derefMut debug core)
    (step : Step derefMut debug core False s actor s') (hactor : actor ≠ some p)
    (hp : s.guard p = some ptr) : s'.guard p = some ptr ∧
      ∀ i, ptr.start ≤ i → i < ptr.stop → s'.element p i = s.element p i := by
  obtain ⟨hguard, hnot⟩ := guard_eq_some.mp hp
  obtain ⟨hbase, -, hlen⟩ := h.borrowed p _ hguard hnot
  have hborrowed : ¬ s.Unborrowed := by
    intro hborrow
    rw [hborrow p (by rw [hguard]; simp)] at hnot
    cases hnot
  -- The core does something for others
  have hraw : ∀ {raw : State Priority InProgress}, raw.borrows p = s.lock.raw.borrows p →
      (s.withRaw raw).guard p = some ptr ∧
        ∀ i, ptr.start ≤ i → i < ptr.stop → (s.withRaw raw).element p i = s.element p i := by
    intro raw hsame
    refine ⟨guard_eq_some.mpr ⟨hsame.trans hguard, hnot⟩, fun i _ _ => ?_⟩
    show s.memory ((if s.lock.raw.borrows p = none then s.lock.ptr else s.base p).cell i) =
      s.memory ((s.base p).cell i)
    rw [hguard, if_neg (Option.some_ne_none _)]
  have hother : ∀ {q : LockPtr} {borrower : Borrower} {ptr' : Range ℕ}
      {raw : State Priority InProgress} {borrow : Option Borrow}, borrower ≠ .guard →
      s.lock.raw.borrows q = some ⟨borrower, ptr'⟩ →
      raw.borrows = Function.update s.lock.raw.borrows q borrow →
      raw.borrows p = s.lock.raw.borrows p := by
    intro q borrower ptr' raw borrow hborrower hq hborrows
    have hpq : p ≠ q := by
      rintro rfl
      rw [hguard] at hq
      cases hq
      exact hborrower rfl
    rw [hborrows, Function.update_of_ne hpq]
  cases step with
  | attempt a haccepted hattempt =>
      obtain ⟨-, hsame | ⟨borrower, hfree, -, hborrows⟩⟩ := h.valid.attempt_cases haccepted hattempt
      · exact hraw (congrFun hsame p)
      · have hpa : p ≠ a.lockState := by
          rintro rfl
          rw [hguard] at hfree
          cases hfree
        exact hraw (by rw [hborrows, Function.update_of_ne hpa])
  | wake q hwake =>
      obtain ⟨ptr', hq, hborrows⟩ := State.wake_cases hwake
      exact hraw (hother (by decide) hq hborrows)
  | poll isWrite state setWaker hforgotten hpoll =>
      obtain ⟨ptr', hq, hsame | hborrows⟩ := State.poll_cases hpoll
      · exact hraw (congrFun hsame p)
      · exact hraw (hother (by decide) hq hborrows)
  | drop q hforgotten hdrop =>
      obtain ⟨-, hborrows⟩ := State.drop_cases hdrop
      have hpq : p ≠ q := fun hpq => hactor (congrArg some hpq.symm)
      exact hraw (by rw [hborrows, Function.update_of_ne hpq])
  | forget q hq hborrower =>
      have hpq : p ≠ q := fun hpq => hactor (congrArg some hpq.symm)
      refine ⟨guard_eq_some.mpr ⟨hguard, (Function.update_of_ne hpq ..).trans hnot⟩, ?_⟩
      exact fun _ _ _ => rfl
  | write q j x hwrite hq hj =>
      have hpq : p ≠ q := fun hpq => hactor (congrArg some hpq.symm)
      obtain ⟨hguard', hnot'⟩ := guard_eq_some.mp hq
      obtain ⟨hbase', -, -⟩ := h.borrowed q _ hguard' hnot'
      refine ⟨guard_eq_some.mpr ⟨hguard, hnot⟩, fun i hstart hstop => ?_⟩
      have hdisjoint := h.valid.disjoint (Ne.symm hpq) hwrite hguard' hguard
      have hij : (s.base p).cell i ≠ (s.base q).cell j := by
        rw [hbase, hbase']
        intro heq
        obtain rfl := SlicePtr.cell_inj heq
        exact Set.disjoint_left.mp hdisjoint (Set.mem_Ico.mpr hj) (Set.mem_Ico.mpr ⟨hstart, hstop⟩)
      exact Function.update_of_ne hij ..
  | replaceContainer container panics hborrow hlive => exact absurd hborrow hborrowed
  | updateContainer container memory updaterPanics derefPanics hborrow =>
      exact absurd hborrow hborrowed
  | getMut i x hborrow hi => exact absurd hborrow hborrowed
  | other memory hsame =>
      refine ⟨guard_eq_some.mpr ⟨hguard, hnot⟩, fun i _ hstop => ?_⟩
      show memory ((s.base p).cell i) = s.memory ((s.base p).cell i)
      rw [hbase, h.current]
      rw [h.current] at hlen
      exact hsame i (lt_of_lt_of_le hstop hlen)

/-- What a guard points to exists, and lies in the container.  As long as the guard itself does
nothing, it finds the same elements there, whatever the other guards, calls and futures and the rest
of the program do. -/
theorem Run.isolated (run : Run derefMut debug core False s)
    (hsteps : Meanwhile derefMut debug core False p s s') (hp : s.guard p = some ptr) :
    s'.guard p = some ptr ∧ ∀ i, ptr.start ≤ i → i < ptr.stop →
      s'.base p = derefMut s'.lock.container ∧ i < (derefMut s'.lock.container).len ∧
      s'.element p i ≠ none ∧ s'.element p i = s.element p i := by
  have hsound := run.sound
  have hkeeps : s'.Sound derefMut debug core ∧ s'.guard p = some ptr ∧
      ∀ i, ptr.start ≤ i → i < ptr.stop → s'.element p i = s.element p i := by
    induction hsteps with
    | refl => exact ⟨hsound, hp, fun _ _ _ => rfl⟩
    | tail _ hstep ih =>
        obtain ⟨hmiddle, hguard, hsame⟩ := ih
        obtain ⟨actor, hactor, step⟩ := hstep
        obtain ⟨hguard', hsame'⟩ := step.keeps hmiddle hactor hguard
        refine ⟨step.sound hmiddle, hguard', fun i hstart hstop => ?_⟩
        exact (hsame' i hstart hstop).trans (hsame i hstart hstop)
  obtain ⟨hsound', hguard, hsame⟩ := hkeeps
  obtain ⟨hborrow, hnot⟩ := guard_eq_some.mp hguard
  obtain ⟨hbase, -, hlen⟩ := hsound'.borrowed p _ hborrow hnot
  refine ⟨hguard, fun i hstart hstop => ⟨hbase.trans hsound'.current, ?_, ?_, hsame i hstart hstop⟩⟩
  · rw [← hsound'.current]
    exact lt_of_lt_of_le hstop hlen
  · show s'.memory ((s'.base p).cell i) ≠ none
    rw [hbase]
    exact hsound'.live i (lt_of_lt_of_le hstop hlen)

/-- Two guards for writing, `0..4` and `4..8`, and a write through the second one. -/
theorem isolated_writer : ∃ s s' : Scene SlicePtr ℕ ℕ ℕ,
    s'.element (tryLockPtr true (slot 2)) 5 ≠ s.element (tryLockPtr true (slot 2)) 5 ∧
    s'.guard (tryLockPtr true (slot 1)) = some ⟨0, 4⟩ ∧ ∀ i, 0 ≤ i → i < 4 →
      s'.base (tryLockPtr true (slot 1)) = id s'.lock.container ∧ i < (id s'.lock.container).len ∧
      s'.element (tryLockPtr true (slot 1)) i ≠ none ∧
      s'.element (tryLockPtr true (slot 1)) i = s.element (tryLockPtr true (slot 1)) i := by
  set p : LockPtr := tryLockPtr true (slot 1) with hp
  set q : LockPtr := tryLockPtr true (slot 2) with hq
  set first : Attempt ℕ ℕ := .tryWrite ⟨0, 4⟩ (slot 1) with hfirst
  set second : Attempt ℕ ℕ := .tryWrite ⟨4, 8⟩ (slot 2) with hsecond
  set s₀ : Scene SlicePtr ℕ ℕ ℕ := start id ⟨0, 0, 10⟩ (fun _ => some 0) with hs₀
  have hend : ((State.init.attempt false (slot 0) 10 first).bind
      (State.attempt false (slot 0) 10 · second)).map (fun s => (s.borrows p, s.borrows q)) =
      some (some ⟨.guard, ⟨0, 4⟩⟩, some ⟨.guard, ⟨4, 8⟩⟩) := by decide +kernel
  obtain ⟨raw₂, h₂, heq⟩ := Option.map_eq_some_iff.mp hend
  obtain ⟨raw₁, h₁, h₂⟩ := Option.bind_eq_some_iff.mp h₂
  obtain ⟨hguard, hguard'⟩ := Prod.mk.inj heq
  have run₀ : Run id false (slot 0) False s₀ := .start _ _ fun _ _ => Option.some_ne_none _
  have run₁ := run₀.step (.attempt first (fun _ _ => by decide) h₁)
  have run₂ := run₁.step (.attempt second (fun _ _ => by decide) h₂)
  set s : Scene SlicePtr ℕ ℕ ℕ := (s₀.withRaw raw₁).withRaw raw₂ with hs
  have hpguard : s.guard p = some ⟨0, 4⟩ := guard_eq_some.mpr ⟨hguard, rfl⟩
  have hqguard : s.guard q = some ⟨4, 8⟩ := guard_eq_some.mpr ⟨hguard', rfl⟩
  have step : Step id false (slot 0) False s (some q) _ :=
    .write q 5 1 rfl hqguard ⟨by decide, by decide⟩
  have hqp : some q ≠ some p := by decide
  refine ⟨s, _, ?_, run₂.isolated (.single ⟨some q, hqp, step⟩) hpguard⟩
  show Function.update s.memory ((s.base q).cell 5) (some 1) ((s.base q).cell 5) ≠
    (some 0 : Option ℕ)
  rw [Function.update_self]
  decide

/-- If `deref_mut` panics at the end of `update_container`, which does not abort the program then,
the lock still points to the elements of the old container.  A guard may point to what has been
freed. -/
theorem not_isolated_of_stale : ∃ (s : Scene SlicePtr ℕ ℕ ℕ) (p : LockPtr) (ptr : Range ℕ),
    Run id false (slot 0) True s ∧ s.guard p = some ptr ∧
    ∃ i, ptr.start ≤ i ∧ i < ptr.stop ∧ s.element p i = none := by
  set p : LockPtr := tryLockPtr true (slot 1) with hp
  set writes : Attempt ℕ ℕ := .tryWrite ⟨0, 4⟩ (slot 1) with hwrites
  set memory : Cell → Option ℕ := fun cell => if cell.1 = 1 then some 0 else none with hmemory
  have hend : (State.init.attempt false (slot 0) 10 writes).map (fun s => s.borrows p) =
      some (some ⟨.guard, ⟨0, 4⟩⟩) := by decide +kernel
  obtain ⟨raw, hraw, hguard⟩ := Option.map_eq_some_iff.mp hend
  have run₀ : Run id false (slot 0) True
      (start id ⟨0, 0, 10⟩ (fun _ => some 0) : Scene SlicePtr ℕ ℕ ℕ) :=
    .start _ _ fun _ _ => Option.some_ne_none _
  have hborrow : (start id ⟨0, 0, 10⟩ (fun _ => some 0) : Scene SlicePtr ℕ ℕ ℕ).Unborrowed :=
    fun _ hborrowed => absurd rfl hborrowed
  have hlive : Live memory (id ⟨1, 0, 10⟩) := by
    intro i _
    rw [hmemory]
    simp [SlicePtr.cell]
  have run₁ := run₀.step
    (.updateContainer ⟨1, 0, 10⟩ memory false true hborrow hlive (fun _ => trivial) rfl)
  have run₂ := run₁.step (.attempt writes (fun _ _ => by decide) hraw)
  exact ⟨_, p, ⟨0, 4⟩, run₂, guard_eq_some.mpr ⟨hguard, rfl⟩, 0, le_rfl, by decide, rfl⟩

end Scene

end Interlock.Hl
