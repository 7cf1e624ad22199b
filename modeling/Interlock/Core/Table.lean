import Interlock.Core.Operations
import Interlock.RbTree.Run

/-!
# What a core stands for

A `Table` says what a core means, without trees and memory: which locks are live, how far each has
borrowed its range, and the waiting ones in the order of `pendings`.  A lock of `start..stop` that
has borrowed up to `e` holds the indices `start ≤ i < e`.  A waiting lock goes on at the end of what
it holds.

The operations on tables are those of the core in large steps.  `firstConflict` replaces the two
searches, and `visit` is one round of the loop of `unlock_*_inner`.
-/

namespace Interlock.Core

open Memory RbTree

/-! ## First elements -/

section First
variable {Index : Type} [LinearOrder Index] {P Q : Index → Prop} {r r' : Option Index}

/-- `r` is the least index with the property `P`, and `none` if there is no index with it. -/
def IsFirst (P : Index → Prop) : Option Index → Prop
  | some i => P i ∧ ∀ j, P j → i ≤ j
  | none => ∀ j, ¬ P j

theorem IsFirst.unique (h : IsFirst P r) (h' : IsFirst P r') : r = r' := by
  cases r with
  | none =>
      cases r' with
      | none => rfl
      | some i => exact absurd h'.1 (h i)
  | some i =>
      cases r' with
      | none => exact absurd h.1 (h' i)
      | some j => rw [le_antisymm (h.2 j h'.1) (h'.2 i h.1)]

theorem IsFirst.congr (h : IsFirst P r) (hiff : ∀ i, P i ↔ Q i) : IsFirst Q r := by
  have heq : P = Q := funext fun i => propext (hiff i)
  exact heq ▸ h

/-- `Q` may have more indices than `P`, but no lower ones. -/
theorem IsFirst.mono (h : IsFirst P r) (hPQ : ∀ i, P i → Q i) (hQP : ∀ j, Q j → ∃ i ≤ j, P i) :
    IsFirst Q r := by
  cases r with
  | none =>
      intro j hj
      obtain ⟨i, -, hi⟩ := hQP j hj
      exact h i hi
  | some k =>
      refine ⟨hPQ k h.1, fun j hj => ?_⟩
      obtain ⟨i, hij, hi⟩ := hQP j hj
      exact (h.2 i hi).trans hij

theorem IsFirst.lower (h : IsFirst P r) (h' : IsFirst Q r') :
    IsFirst (fun i => P i ∨ Q i) (lowerConflict r r') := by
  cases r with
  | none =>
      cases r' with
      | none => exact fun j hj => hj.elim (h j) (h' j)
      | some j => exact ⟨Or.inr h'.1, fun k hk => hk.elim (fun hk => absurd hk (h k)) (h'.2 k)⟩
  | some i =>
      cases r' with
      | none => exact ⟨Or.inl h.1, fun k hk => hk.elim (h.2 k) fun hk => absurd hk (h' k)⟩
      | some j =>
          refine ⟨?_, fun k hk => ?_⟩
          · rcases min_choice i j with hmin | hmin
            · rw [hmin]
              exact Or.inl h.1
            · rw [hmin]
              exact Or.inr h'.1
          · rcases hk with hk | hk
            · exact (min_le_left i j).trans (h.2 k hk)
            · exact (min_le_right i j).trans (h'.2 k hk)

instance instLawfulOrderMin : Std.LawfulOrderMin Index where
  le_min_iff _ _ _ := le_min_iff
  min_eq_or := min_choice

theorem isFirst_min? (xs : List Index) : IsFirst (· ∈ xs) xs.min? := by
  cases hmin : xs.min? with
  | none =>
      rw [List.min?_eq_none_iff] at hmin
      simp [IsFirst, hmin]
  | some i =>
      obtain ⟨hmem, hle⟩ := List.min?_eq_some_iff.mp hmin
      exact ⟨hmem, hle⟩

end First

/-! ## Tables -/

/-- A lock: the requested range, and the end of the borrowed region if there are nodes for it. -/
structure Lock (Index : Type) where
  start : Index
  stop : Index
  held : Option Index

structure Table (Index Priority InProgress : Type) where
  locks : LockPtr → Option (Lock Index)
  /-- The addresses of the locks, newest first. -/
  live : List LockPtr
  /-- The waiting locks, as `pendings` orders them. -/
  queue : List (LockPtr × Pending Index Priority InProgress)

variable {Index Priority InProgress : Type}

namespace Lock

/-- Where the lock has got to. -/
def pos (l : Lock Index) : Index := l.held.getD l.start

@[simp] theorem pos_some (start stop e : Index) : (⟨start, stop, some e⟩ : Lock Index).pos = e :=
  rfl

@[simp] theorem pos_none (start stop : Index) : (⟨start, stop, none⟩ : Lock Index).pos = start :=
  rfl

/-- The range that was requested. -/
def request (l : Lock Index) : Range Index := ⟨l.start, l.stop⟩

variable [LinearOrder Index]

def Holds (l : Lock Index) (i : Index) : Prop := l.start ≤ i ∧ i < l.pos

/-- Where a request for `range` meets the borrowed region. -/
def conflict (l : Lock Index) (range : Range Index) : Option Index :=
  match l.held with
  | some e =>
      if l.start < range.stop ∧ range.start < e then some (max l.start range.start) else none
  | none => none

end Lock

/-- Two locks that cannot both hold an index. -/
def conflicting (p q : LockPtr) : Bool := p.kind.isWrite || q.kind.isWrite

theorem conflicting_comm (p q : LockPtr) : conflicting p q = conflicting q p := Bool.or_comm _ _

namespace Table
variable [LinearOrder Index] [LinearOrder Priority]

def empty : Table Index Priority InProgress := ⟨fun _ => none, [], []⟩

/-- The range of a lock, if it is live. -/
def requestOf (s : Table Index Priority InProgress) (p : LockPtr) : Option (Range Index) :=
  (s.locks p).map Lock.request

/-- `p` has to stop at `i` when it borrows `range`. -/
def ConflictAt (s : Table Index Priority InProgress) (p : LockPtr) (range : Range Index)
    (i : Index) : Prop :=
  ∃ q l, s.locks q = some l ∧ conflicting p q ∧ l.conflict range = some i

def firstConflict (s : Table Index Priority InProgress) (p : LockPtr) (range : Range Index) :
    Option Index :=
  (s.live.filterMap fun q =>
    if conflicting p q then (s.locks q).bind (·.conflict range) else none).min?

/-- Change the end of what `p` holds. -/
def setHeld (s : Table Index Priority InProgress) (p : LockPtr) (held : Option Index) :
    Table Index Priority InProgress :=
  { s with locks := Function.update s.locks p ((s.locks p).map fun l => { l with held }) }

/-- A new lock that holds `range` up to `held`. -/
def add (s : Table Index Priority InProgress) (p : LockPtr) (range : Range Index)
    (held : Option Index) : Table Index Priority InProgress :=
  { s with
    locks := Function.update s.locks p (some ⟨range.start, range.stop, held⟩)
    live := p :: s.live }

def enqueue (s : Table Index Priority InProgress)
    (x : LockPtr × Pending Index Priority InProgress) : Table Index Priority InProgress :=
  { s with queue := insertSeq pendingNodeCallback x s.queue }

def dequeue (s : Table Index Priority InProgress) (p : LockPtr) :
    Table Index Priority InProgress :=
  { s with queue := removeSeq p s.queue }

/-- The end of an operation on `p`. -/
def forget (s : Table Index Priority InProgress) (p : LockPtr) : Table Index Priority InProgress :=
  { s with
    locks := Function.update s.locks p none
    live := s.live.filter fun q => q ≠ p }

/-- What `inspect_*_mut` shows of a waiter. -/
def waiting (s : Table Index Priority InProgress) (p : LockPtr) : Option InProgress :=
  (s.queue.find? fun x => x.1 = p).map fun x => x.2.inProgress

/-- Change the value that a waiter carries. -/
def writeEntry (p : LockPtr) (f : InProgress → InProgress)
    (x : LockPtr × Pending Index Priority InProgress) :
    LockPtr × Pending Index Priority InProgress :=
  if x.1 = p then (x.1, { x.2 with inProgress := f x.2.inProgress }) else x

def write (s : Table Index Priority InProgress) (p : LockPtr) (f : InProgress → InProgress) :
    Table Index Priority InProgress :=
  { s with queue := s.queue.map (writeEntry p f) }

section Parts
variable (s : Table Index Priority InProgress) (p q : LockPtr) (range : Range Index)
  (held : Option Index) (x : LockPtr × Pending Index Priority InProgress)

@[simp] theorem enqueue_locks : (s.enqueue x).locks = s.locks := rfl
@[simp] theorem enqueue_live : (s.enqueue x).live = s.live := rfl

omit [LinearOrder Index] [LinearOrder Priority]

@[simp] theorem setHeld_live : (s.setHeld p held).live = s.live := rfl
@[simp] theorem setHeld_queue : (s.setHeld p held).queue = s.queue := rfl
@[simp] theorem add_live : (s.add p range held).live = p :: s.live := rfl
@[simp] theorem add_queue : (s.add p range held).queue = s.queue := rfl
@[simp] theorem dequeue_locks : (s.dequeue p).locks = s.locks := rfl
@[simp] theorem dequeue_live : (s.dequeue p).live = s.live := rfl
@[simp] theorem forget_queue : (s.forget p).queue = s.queue := rfl

@[simp] theorem write_locks (f : InProgress → InProgress) : (s.write p f).locks = s.locks := rfl
@[simp] theorem write_live (f : InProgress → InProgress) : (s.write p f).live = s.live := rfl

@[simp] theorem writeEntry_fst (f : InProgress → InProgress) : (writeEntry p f x).1 = x.1 := by
  unfold writeEntry
  split <;> rfl

@[simp] theorem writeEntry_range (f : InProgress → InProgress) :
    (writeEntry p f x).2.range = x.2.range := by
  unfold writeEntry
  split <;> rfl

@[simp] theorem writeEntry_priority (f : InProgress → InProgress) :
    (writeEntry p f x).2.priority = x.2.priority := by
  unfold writeEntry
  split <;> rfl

@[simp] theorem writeEntry_parent (f : InProgress → InProgress) :
    (writeEntry p f x).2.parent = x.2.parent := by
  unfold writeEntry
  split <;> rfl

theorem setHeld_locks {l : Lock Index} (hl : s.locks p = some l) : (s.setHeld p held).locks q =
    if q = p then some { l with held } else s.locks q := by
  simp only [setHeld, Function.update_apply, hl, Option.map_some]

theorem add_locks : (s.add p range held).locks q =
    if q = p then some ⟨range.start, range.stop, held⟩ else s.locks q := by
  simp only [add, Function.update_apply]

theorem forget_locks : (s.forget p).locks q = if q = p then none else s.locks q := by
  simp only [forget, Function.update_apply]

theorem mem_forget_live : q ∈ (s.forget p).live ↔ q ∈ s.live ∧ q ≠ p := by
  simp [forget]

end Parts

/-- A waiter that goes on at `i`. -/
def moveTo (x : LockPtr × Pending Index Priority InProgress) (i : Index) :
    LockPtr × Pending Index Priority InProgress :=
  (x.1, { x.2 with range := { x.2.range with start := i } })

/-- `resume_borrow`, when its searches find `conflict`. -/
def resumeAt (s : Table Index Priority InProgress)
    (x : LockPtr × Pending Index Priority InProgress) (conflict : Option Index) :
    Table Index Priority InProgress :=
  match conflict with
  | some i =>
      if i = x.2.range.start then s
      else ((s.dequeue x.1).setHeld x.1 (some i)).enqueue (moveTo x i)
  | none => (s.dequeue x.1).setHeld x.1 (some x.2.range.stop)

/-- `resume_borrow` -/
def resume (s : Table Index Priority InProgress)
    (x : LockPtr × Pending Index Priority InProgress) : Table Index Priority InProgress :=
  s.resumeAt x (s.firstConflict x.1 x.2.range)

/-- Take `i..` from what `p` holds. -/
def truncate (s : Table Index Priority InProgress) (p : LockPtr) (i : Index) :
    Table Index Priority InProgress :=
  match s.locks p with
  | some l => s.setHeld p (l.held.bind fun _ => if i = l.start then none else some i)
  | none => s

/-- One round of the loop in which `p` is unlocked, when the searches find `conflict`. -/
def visitAt (p : LockPtr) (s : Table Index Priority InProgress)
    (x : LockPtr × Pending Index Priority InProgress) (conflict : Option Index) :
    Table Index Priority InProgress :=
  (s.truncate p x.2.range.start).resumeAt x conflict

/-- One round of the loop. -/
def visit (p : LockPtr) (s : Table Index Priority InProgress)
    (x : LockPtr × Pending Index Priority InProgress) : Table Index Priority InProgress :=
  s.visitAt p x ((s.truncate p x.2.range.start).firstConflict x.1 x.2.range)

theorem visit_eq (p : LockPtr) (s : Table Index Priority InProgress)
    (x : LockPtr × Pending Index Priority InProgress) :
    s.visit p x = (s.truncate p x.2.range.start).resume x := rfl

/-- The waiters inside the region of `p`, in the order in which its release visits them. -/
def waitersOf (s : Table Index Priority InProgress) (p : LockPtr) :
    List (LockPtr × Pending Index Priority InProgress) :=
  match s.locks p with
  | some l => (s.queue.filter fun x => l.start ≤ x.2.range.start ∧ x.2.range.start < l.pos).reverse
  | none => []

/-- `lock_read` and `lock_write`, when the search finds `conflict`. -/
def lockAt (s : Table Index Priority InProgress) (p : LockPtr) (range : Range Index)
    (priority : Priority) (inProgress : InProgress) (conflict : Option Index) :
    Table Index Priority InProgress :=
  match conflict with
  | some i =>
      (s.add p range (if i = range.start then none else some i)).enqueue
        (p, ⟨⟨i, range.stop⟩, priority, p, inProgress⟩)
  | none => s.add p range (some range.stop)

/-- `lock_read` and `lock_write` -/
def lock (s : Table Index Priority InProgress) (p : LockPtr) (range : Range Index)
    (priority : Priority) (inProgress : InProgress) : Table Index Priority InProgress :=
  s.lockAt p range priority inProgress (s.firstConflict p range)

section Lock
variable {s : Table Index Priority InProgress} {p : LockPtr} {range : Range Index} {i : Index}

theorem lock_of_none (h : s.firstConflict p range = none) (priority : Priority)
    (inProgress : InProgress) :
    s.lock p range priority inProgress = s.add p range (some range.stop) := by
  rw [lock, h, lockAt]

theorem lock_of_some (h : s.firstConflict p range = some i) (priority : Priority)
    (inProgress : InProgress) : s.lock p range priority inProgress =
      (s.add p range (if i = range.start then none else some i)).enqueue
        (p, ⟨⟨i, range.stop⟩, priority, p, inProgress⟩) := by
  rw [lock, h, lockAt]

end Lock

/-- `try_lock_read` and `try_lock_write` -/
def tryLock (s : Table Index Priority InProgress) (p : LockPtr) (range : Range Index) :
    Table Index Priority InProgress :=
  match s.firstConflict p range with
  | some _ => s
  | none => s.add p range (some range.stop)

/-- `unlock_*` -/
def unlock (s : Table Index Priority InProgress) (p : LockPtr) : Table Index Priority InProgress :=
  (((s.dequeue p).waitersOf p).foldl (visit p) (s.dequeue p)).forget p

end Table

end Interlock.Core
