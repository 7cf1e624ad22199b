import Interlock.Core.Release

/-!
# Runs of tables

A `System` has one table for each core, and the events that a client sees, with the tables in place
of the memory.  A `System.Step` is a call of an operation on one of the cores, for a range that
`accepts` allows.  A call on a lock state that is in use, or that belongs to another core, panics
and changes no table; `misuse` says whether there are such calls.
-/

namespace Interlock.Core

open Memory RbTree

variable {Index Priority InProgress : Type} [LinearOrder Index] [LinearOrder Priority]

abbrev Tables (Index Priority InProgress : Type) := Addr → Table Index Priority InProgress

/-- A core has claimed `p`. -/
def InUse (tables : Tables Index Priority InProgress) (p : LockPtr) : Prop :=
  ∃ c l, (tables c).locks p = some l

/-- The state between operations. -/
structure Good (strict : Prop) (tables : Tables Index Priority InProgress) : Prop where
  quiet : ∀ c, (tables c).Quiet strict
  /-- No lock is in two tables. -/
  apart : ∀ c c' p l l', (tables c).locks p = some l → (tables c').locks p = some l' → c = c'

/-- The part of it that does not depend on what the searches for conflicts find. -/
structure Coherent (tables : Tables Index Priority InProgress) : Prop where
  idle : ∀ c, (tables c).Idle
  apart : ∀ c c' p l l', (tables c).locks p = some l → (tables c').locks p = some l' → c = c'

theorem Good.coherent {strict : Prop} {tables : Tables Index Priority InProgress}
    (h : Good strict tables) : Coherent tables := ⟨fun c => (h.quiet c).idle, h.apart⟩

section Tables
variable {strict : Prop} {core : Addr} {p : LockPtr} {tables : Tables Index Priority InProgress}
  {s' : Table Index Priority InProgress}

omit [LinearOrder Index] [LinearOrder Priority] in
theorem locks_eq_none_of_not_inUse (h : ¬ InUse tables p) (c : Addr) :
    (tables c).locks p = none := by
  by_contra hsome
  obtain ⟨l, hl⟩ := Option.ne_none_iff_exists'.mp hsome
  exact h ⟨c, l, hl⟩

omit [LinearOrder Index] [LinearOrder Priority] in
/-- A core takes no lock that another one has. -/
theorem apart_update (h : ∀ c c' p l l', (tables c).locks p = some l →
      (tables c').locks p = some l' → c = c')
    (hapart : ∀ c p l l', c ≠ core → (tables c).locks p = some l → s'.locks p ≠ some l')
    (c c' : Addr) (p : LockPtr) (l l' : Lock Index)
    (hl : (Function.update tables core s' c).locks p = some l)
    (hl' : (Function.update tables core s' c').locks p = some l') : c = c' := by
  by_cases hc : c = core
  · subst hc
    rw [Function.update_self] at hl
    by_contra hc'
    rw [Function.update_of_ne (Ne.symm hc')] at hl'
    exact hapart c' p l' l (Ne.symm hc') hl' hl
  · rw [Function.update_of_ne hc] at hl
    by_cases hc' : c' = core
    · subst hc'
      rw [Function.update_self] at hl'
      exact absurd hl' (hapart c p l l' hc hl)
    · rw [Function.update_of_ne hc'] at hl'
      exact h c c' p l l' hl hl'

theorem Coherent.update (h : Coherent tables) (hs' : s'.Idle)
    (hapart : ∀ c p l l', c ≠ core → (tables c).locks p = some l → s'.locks p ≠ some l') :
    Coherent (Function.update tables core s') := by
  refine ⟨fun c => ?_, apart_update h.apart hapart⟩
  by_cases hc : c = core
  · subst hc
    rwa [Function.update_self]
  · rw [Function.update_of_ne hc]
    exact h.idle c

theorem Good.update (h : Good strict tables) (hs' : s'.Quiet strict)
    (hapart : ∀ c p l l', c ≠ core → (tables c).locks p = some l → s'.locks p ≠ some l') :
    Good strict (Function.update tables core s') := by
  refine ⟨fun c => ?_, apart_update h.apart hapart⟩
  by_cases hc : c = core
  · subst hc
    rwa [Function.update_self]
  · rw [Function.update_of_ne hc]
    exact h.quiet c

omit [LinearOrder Index] [LinearOrder Priority] in
/-- A core that changes its own locks only takes no other. -/
theorem apart_put (h : ∀ c c' p l l', (tables c).locks p = some l →
      (tables c').locks p = some l' → c = c')
    (hlocks : ∀ q, (s'.requestOf q).isSome → ((tables core).requestOf q).isSome) :
    ∀ c p l l', c ≠ core → (tables c).locks p = some l → s'.locks p ≠ some l' := by
  intro c q l l' hc hl hl'
  have hq : ((tables core).locks q).isSome := by
    simpa [Table.requestOf] using hlocks q (by simp [Table.requestOf, hl'])
  obtain ⟨m, hm⟩ := Option.isSome_iff_exists.mp hq
  exact hc (h c core q l m hl hm)

omit [LinearOrder Index] [LinearOrder Priority] in
theorem apart_claim (h : ∀ c c' p l l', (tables c).locks p = some l →
      (tables c').locks p = some l' → c = c') (hp : ¬ InUse tables p)
    (hlocks : ∀ q, q ≠ p → s'.locks q = (tables core).locks q) :
    ∀ c q l l', c ≠ core → (tables c).locks q = some l → s'.locks q ≠ some l' := by
  intro c q l l' hc hl hl'
  by_cases hqp : q = p
  · subst hqp
    exact hp ⟨c, l, hl⟩
  · rw [hlocks q hqp] at hl'
    exact hc (h c core q l l' hl hl')

/-- What one core does to its own locks. -/
theorem Good.put (h : Good strict tables) (hs' : s'.Quiet strict)
    (hlocks : ∀ q, (s'.requestOf q).isSome → ((tables core).requestOf q).isSome) :
    Good strict (Function.update tables core s') :=
  h.update hs' (apart_put h.apart hlocks)

theorem Coherent.put (h : Coherent tables) (hs' : s'.Idle)
    (hlocks : ∀ q, (s'.requestOf q).isSome → ((tables core).requestOf q).isSome) :
    Coherent (Function.update tables core s') :=
  h.update hs' (apart_put h.apart hlocks)

/-- A core claims `p`. -/
theorem Good.claim (h : Good strict tables) (hp : ¬ InUse tables p) (hs' : s'.Quiet strict)
    (hlocks : ∀ q, q ≠ p → s'.locks q = (tables core).locks q) :
    Good strict (Function.update tables core s') :=
  h.update hs' (apart_claim h.apart hp hlocks)

theorem Coherent.claim (h : Coherent tables) (hp : ¬ InUse tables p) (hs' : s'.Idle)
    (hlocks : ∀ q, q ≠ p → s'.locks q = (tables core).locks q) :
    Coherent (Function.update tables core s') :=
  h.update hs' (apart_claim h.apart hp hlocks)

end Tables

structure System (Index Priority InProgress : Type) where
  tables : Tables Index Priority InProgress
  /-- Newest first. -/
  log : List (Event Index Priority InProgress (Tables Index Priority InProgress))

/-- The method of its callback that a lock operation calls. -/
def lockEvent {Mem : Type} (conflict : Option Index) (p : LockPtr) (inProgress : InProgress) :
    Event Index Priority InProgress Mem :=
  match conflict with
  | some _ => .inProgress p inProgress
  | none => .lockComplete p

namespace System
variable (core : Addr) (p : LockPtr)

def init : System Index Priority InProgress := ⟨fun _ => .empty, []⟩

def put (σ : System Index Priority InProgress) (s : Table Index Priority InProgress) :
    System Index Priority InProgress :=
  ⟨Function.update σ.tables core s, σ.log⟩

def note (σ : System Index Priority InProgress)
    (event : Event Index Priority InProgress (Tables Index Priority InProgress)) :
    System Index Priority InProgress :=
  ⟨σ.tables, event :: σ.log⟩

def returned (σ : System Index Priority InProgress) (call : Call Index Priority InProgress)
    (reply : Reply InProgress) : System Index Priority InProgress :=
  σ.note (.returned call reply σ.tables)

/-- `resume_borrow`, when its searches find `conflict`. -/
def resumeAt (σ : System Index Priority InProgress)
    (x : LockPtr × Pending Index Priority InProgress) (conflict : Option Index) :
    System Index Priority InProgress :=
  match conflict with
  | some _ => σ.put core ((σ.tables core).resumeAt x conflict)
  | none =>
      let σ' := σ.put core ((σ.tables core).dequeue x.1)
      (σ'.note (.complete x.1 x.2.inProgress σ'.tables)).put core
        ((σ.tables core).resumeAt x conflict)

/-- One round of the loop in which `p` is unlocked, when the searches find `conflict`. -/
def visitAt (σ : System Index Priority InProgress)
    (x : LockPtr × Pending Index Priority InProgress) (conflict : Option Index) :
    System Index Priority InProgress :=
  let σ₁ := σ.put core ((σ.tables core).truncate p x.2.range.start)
  let σ₂ := (σ₁.note (.resuming x.1 σ₁.tables)).resumeAt core x conflict
  σ₂.note (.resumed x.1 σ₂.tables)

/-- One round of the loop. -/
def visit (σ : System Index Priority InProgress)
    (x : LockPtr × Pending Index Priority InProgress) : System Index Priority InProgress :=
  σ.visitAt core p x
    (((σ.tables core).truncate p x.2.range.start).firstConflict x.1 x.2.range)

/-- The loop, with the waiters that it visits. -/
def release (σ : System Index Priority InProgress)
    (visits : List (LockPtr × Pending Index Priority InProgress)) :
    System Index Priority InProgress :=
  visits.foldl (visit core p) σ

/-- `unlock_*` -/
def unlock (σ : System Index Priority InProgress) : System Index Priority InProgress :=
  let σ₀ := σ.put core ((σ.tables core).dequeue p)
  let σ₁ := σ₀.release core p ((σ₀.tables core).waitersOf p)
  σ₁.put core ((σ₁.tables core).forget p)

/-- `lock_read` and `lock_write`, when the search finds `conflict`. -/
def lockAt (σ : System Index Priority InProgress) (range : Range Index) (priority : Priority)
    (inProgress : InProgress) (conflict : Option Index) : System Index Priority InProgress :=
  (σ.note (lockEvent conflict p inProgress)).put core
    ((σ.tables core).lockAt p range priority inProgress conflict)

/-- `lock_read` and `lock_write` -/
def lock (σ : System Index Priority InProgress) (range : Range Index) (priority : Priority)
    (inProgress : InProgress) : System Index Priority InProgress :=
  σ.lockAt core p range priority inProgress ((σ.tables core).firstConflict p range)

/-- `try_lock_read` and `try_lock_write` -/
def tryLock (σ : System Index Priority InProgress) (range : Range Index) :
    System Index Priority InProgress :=
  σ.put core ((σ.tables core).tryLock p range)

/-- A write through the reference from `inspect_read_mut` or `inspect_write_mut`. -/
def write (σ : System Index Priority InProgress) (f : InProgress → InProgress) :
    System Index Priority InProgress :=
  σ.put core ((σ.tables core).write p f)

/-- Calls on a lock state that is in use, or that belongs to another core. -/
def Misused (tables : Tables Index Priority InProgress) : Call Index Priority InProgress → Prop
  | .lock isWrite _ state _ _ _ => InUse tables (lockPtr isWrite state)
  | .tryLock isWrite core state range =>
      (tables core).firstConflict (tryLockPtr isWrite state) range = none ∧
        InUse tables (tryLockPtr isWrite state)
  | .unlock core p => (tables core).locks p = none
  | .inspect isWrite core state _ => (tables core).locks (lockPtr isWrite state) = none

inductive Step (misuse : Prop) (accepts : LockPtr → Range Index → Prop)
    (σ : System Index Priority InProgress) : System Index Priority InProgress → Prop where
  | lock (isWrite : Bool) (core state : Addr) {range : Range Index} (priority : Priority)
      (inProgress : InProgress) (hrange : accepts (lockPtr isWrite state) range)
      (hfresh : ¬ InUse σ.tables (lockPtr isWrite state)) :
      Step misuse accepts σ
        ((σ.lock core (lockPtr isWrite state) range priority inProgress).returned
        (.lock isWrite core state range priority inProgress)
        (.locked ((σ.tables core).firstConflict (lockPtr isWrite state) range).isNone))
  | tryLock (isWrite : Bool) (core state : Addr) {range : Range Index}
      (hrange : accepts (tryLockPtr isWrite state) range)
      (hfresh : (σ.tables core).firstConflict (tryLockPtr isWrite state) range = none →
        ¬ InUse σ.tables (tryLockPtr isWrite state)) :
      Step misuse accepts σ ((σ.tryLock core (tryLockPtr isWrite state) range).returned
        (.tryLock isWrite core state range)
        (.locked ((σ.tables core).firstConflict (tryLockPtr isWrite state) range).isNone))
  | unlock (core : Addr) (p : LockPtr) {l : Lock Index} (hl : (σ.tables core).locks p = some l) :
      Step misuse accepts σ ((σ.unlock core p).returned (.unlock core p)
        (.unlocked ((σ.tables core).waiting p)))
  | inspect (isWrite : Bool) (core state : Addr) (write : InProgress → InProgress) {l : Lock Index}
      (hl : (σ.tables core).locks (lockPtr isWrite state) = some l) :
      Step misuse accepts σ ((σ.write core (lockPtr isWrite state) write).returned
        (.inspect isWrite core state write)
        (.inspected (((σ.tables core).waiting (lockPtr isWrite state)).elim .complete .inProgress)))
  /-- A lock call on a lock state in use has called its callback before it panics. -/
  | lockPanic (hmisuse : misuse) (isWrite : Bool) (core state : Addr) (range : Range Index)
      (priority : Priority) (inProgress : InProgress)
      (hused : InUse σ.tables (lockPtr isWrite state)) :
      Step misuse accepts σ ((σ.note
        (lockEvent ((σ.tables core).firstConflict (lockPtr isWrite state) range)
          (lockPtr isWrite state) inProgress)).note
            (.panicked (.lock isWrite core state range priority inProgress)))
  | panic (hmisuse : misuse) (call : Call Index Priority InProgress)
      (hmisused : Misused σ.tables call) :
      Step misuse accepts σ (σ.note (.panicked call))

/-- The systems that can be reached. -/
inductive Run (misuse : Prop) (accepts : LockPtr → Range Index → Prop) :
    System Index Priority InProgress → Prop where
  | init : Run misuse accepts init
  | step {σ σ'} (run : Run misuse accepts σ) (step : Step misuse accepts σ σ') :
      Run misuse accepts σ'

/-! ## Small lemmas -/

section Lemmas
variable {core : Addr} {p : LockPtr} (σ : System Index Priority InProgress)
  (s : Table Index Priority InProgress)
  (event : Event Index Priority InProgress (Tables Index Priority InProgress))
  (x : LockPtr × Pending Index Priority InProgress)

omit [LinearOrder Index] [LinearOrder Priority]

@[simp] theorem put_tables : (σ.put core s).tables = Function.update σ.tables core s := rfl
@[simp] theorem put_log : (σ.put core s).log = σ.log := rfl
@[simp] theorem note_tables : (σ.note event).tables = σ.tables := rfl
@[simp] theorem note_log : (σ.note event).log = event :: σ.log := rfl
@[simp] theorem returned_tables (call : Call Index Priority InProgress) (reply : Reply InProgress) :
    (σ.returned call reply).tables = σ.tables := rfl

variable [LinearOrder Index] [LinearOrder Priority]

theorem resumeAt_tables (conflict : Option Index) : (σ.resumeAt core x conflict).tables =
    Function.update σ.tables core ((σ.tables core).resumeAt x conflict) := by
  unfold resumeAt
  split
  · rfl
  · simp only [put_tables, note_tables, Function.update_idem]

theorem visitAt_tables (conflict : Option Index) : (σ.visitAt core p x conflict).tables =
    Function.update σ.tables core ((σ.tables core).visitAt p x conflict) := by
  simp only [visitAt, note_tables, resumeAt_tables, put_tables, Function.update_self,
    Function.update_idem]
  rfl

theorem visit_tables :
    (σ.visit core p x).tables = Function.update σ.tables core ((σ.tables core).visit p x) :=
  visitAt_tables σ x _

theorem release_tables (visits : List (LockPtr × Pending Index Priority InProgress)) :
    (σ.release core p visits).tables =
      Function.update σ.tables core (visits.foldl (Table.visit p) (σ.tables core)) := by
  induction visits generalizing σ with
  | nil => exact (Function.update_eq_self _ _).symm
  | cons x visits ih =>
      rw [release, List.foldl_cons]
      refine (ih (σ.visit core p x)).trans ?_
      simp only [visit_tables, Function.update_self, Function.update_idem, List.foldl_cons]

theorem unlock_tables :
    (σ.unlock core p).tables = Function.update σ.tables core ((σ.tables core).unlock p) := by
  simp only [unlock, put_tables, release_tables, Function.update_self, Function.update_idem]
  rfl

end Lemmas

/-! ## Invariants -/

variable {misuse strict : Prop} {accepts : LockPtr → Range Index → Prop}
  {σ σ' : System Index Priority InProgress}

theorem Step.good (haccepts : ∀ p range, accepts p range → Table.Admissible strict p range)
    (h : Good strict σ.tables) (step : Step misuse accepts σ σ') : Good strict σ'.tables := by
  cases step with
  | @lock isWrite core state range priority inProgress hrange hfresh =>
      refine h.claim hfresh ?_ fun q hne => Table.lock_locks_of_ne hne priority inProgress
      exact (h.quiet core).lock (locks_eq_none_of_not_inUse hfresh core)
        (lockPtr_kind isWrite state)
        (haccepts _ _ hrange) priority inProgress
  | @tryLock isWrite core state range hrange hfresh =>
      cases hfirst : (σ.tables core).firstConflict (tryLockPtr isWrite state) range with
      | some i =>
          refine h.put ?_ fun q hq => ?_
          · rw [Table.tryLock, hfirst]
            exact h.quiet core
          · rwa [Table.tryLock, hfirst] at hq
      | none =>
          have hunused := hfresh hfirst
          exact h.claim hunused ((h.quiet core).tryLock (locks_eq_none_of_not_inUse hunused core)
            (haccepts _ _ hrange)) fun q hne => Table.tryLock_locks_of_ne hne
  | unlock core p hl =>
      rw [returned_tables, unlock_tables]
      refine h.put ((h.quiet core).unlock hl) fun q hq => ?_
      by_cases hqp : q = p
      · simp [hqp, Table.requestOf] at hq
      · rwa [Table.unlock_requestOf hqp] at hq
  | inspect isWrite core state write hl => exact h.put ((h.quiet core).write _ _) fun q hq => hq
  | lockPanic => exact h
  | panic => exact h

/-- In every run every table is quiet, and no lock is in two tables. -/
theorem Run.good (haccepts : ∀ p range, accepts p range → Table.Admissible strict p range)
    (run : Run misuse accepts σ) : Good strict σ.tables := by
  induction run with
  | init => exact ⟨fun _ => Table.empty_quiet, fun _ _ _ _ _ hl => by cases hl⟩
  | step _ step ih => exact step.good haccepts ih

end System

end Interlock.Core
