import Interlock.Core.Calls

/-!
# The lock for one thread

`raw/local.rs`: the core in a `PinCell`, which lends it to one call at a time.  Nobody waits, so
that the core is made for neither priorities nor values in progress.  The operations that should
wait panic where they would have to.

`Holding` is what a caller may think of: a list of the ranges that are held.
-/

namespace Interlock.Raw.Local

open Interlock.Core Interlock.Memory Interlock.RbTree

variable {Index : Type} [LinearOrder Index]

/-! ## The operations -/

/-- The memory, and the cores that are lent out. -/
structure State (Index : Type) where
  store : Store Index Empty Empty
  borrowed : Addr → Bool

namespace State

def init : State Index := ⟨.init, fun _ => false⟩

end State

abbrev LocalM (Index : Type) := EStateM Fault (State Index)

section Operations
variable (debug : Bool) (core : Addr)

def coreIsNotReentrant {α : Type} : LocalM Index α :=
  throw (.panic "attempted to recursively call a method of `LocalRawIntervalRwLock`")

def deadlocked {α : Type} : LocalM Index α := throw (.panic "deadlocked")

def lend (s : State Index) (lent : Bool) : State Index :=
  { s with borrowed := Function.update s.borrowed core lent }

/-- The rest of a method after `borrow_core!`.  The core is given back when it ends, also by a
panic. -/
def borrowCore {α : Type} (method : CoreM Index Empty Empty α) : LocalM Index α := fun s =>
  if s.borrowed core then coreIsNotReentrant s
  else
    let s := lend core s true
    match method ⟨s.store, []⟩ with
    | .ok a w => .ok a (lend core { s with store := w.store } false)
    | .error fault w => .error fault (lend core { s with store := w.store } false)

def tryLockRead (range : Range Index) (state : Addr) : LocalM Index Bool :=
  borrowCore core (Core.tryLockRead debug core range state)

def tryLockWrite (range : Range Index) (state : Addr) : LocalM Index Bool :=
  borrowCore core (Core.tryLockWrite debug core range state)

def unlockTryRead (state : Addr) : LocalM Index Unit :=
  borrowCore core (Core.unlockTryRead debug core state)

def unlockTryWrite (state : Addr) : LocalM Index Unit :=
  borrowCore core (Core.unlockTryWrite debug core state)

def lockRead (range : Range Index) (state : Addr) : LocalM Index Unit := do
  if !(← tryLockRead debug core range state) then deadlocked

def lockWrite (range : Range Index) (state : Addr) : LocalM Index Unit := do
  if !(← tryLockWrite debug core range state) then deadlocked

def unlockRead (state : Addr) : LocalM Index Unit := unlockTryRead debug core state

def unlockWrite (state : Addr) : LocalM Index Unit := unlockTryWrite debug core state

end Operations

/-- The methods of `RawIntervalRwLock` and `RawBlockingIntervalRwLock`. -/
inductive Method (Index : Type) where
  | tryLock (isWrite : Bool) (core : Addr) (range : Range Index) (state : Addr)
  | unlockTry (isWrite : Bool) (core state : Addr)
  | lock (isWrite : Bool) (core : Addr) (range : Range Index) (state : Addr)
  | unlock (isWrite : Bool) (core state : Addr)

inductive Reply where
  | locked (success : Bool)
  | done
  deriving DecidableEq

namespace Method

def perform (debug : Bool) : Method Index → LocalM Index Reply
  | tryLock isWrite core range state => do
      let success ← (if isWrite then tryLockWrite debug core range state
        else tryLockRead debug core range state)
      return .locked success
  | unlockTry isWrite core state => do
      if isWrite then unlockTryWrite debug core state else unlockTryRead debug core state
      return .done
  | lock isWrite core range state => do
      if isWrite then lockWrite debug core range state else lockRead debug core range state
      return .done
  | unlock isWrite core state => do
      if isWrite then unlockWrite debug core state else unlockRead debug core state
      return .done

/-- The methods without a range, and those whose range is not empty. -/
def Accepted : Method Index → Prop
  | tryLock _ _ range _ | lock _ _ range _ => range.start < range.stop
  | unlockTry .. | unlock .. => True

end Method

/-! ## What they are for -/

/-- A range that is held with a lock state. -/
structure Holding (Index : Type) where
  lockState : LockPtr
  core : Addr
  range : Range Index

abbrev HoldingM (Index : Type) := EStateM Fault (List (Holding Index))

namespace Holding
variable (debug : Bool) (core : Addr)

/-- The ranges share an index, and one of them is held for writing. -/
def conflicts (range : Range Index) (p : LockPtr) (holding : Holding Index) : Bool :=
  decide (holding.core = core) && conflicting p holding.lockState &&
    decide (holding.range.start < range.stop ∧ range.start < holding.range.stop)

def tryLock (range : Range Index) (p : LockPtr) : HoldingM Index Bool := fun held =>
  if debug && !decide (range.start < range.stop) then .error (.panic invalidRange) held
  else if held.any (conflicts core range p) then .ok false held
  else if held.any fun holding => holding.lockState = p then .error (.panic stillInUse) held
  else .ok true (⟨p, core, range⟩ :: held)

def unlock (p : LockPtr) : HoldingM Index Unit := fun held =>
  if held.any fun holding => decide (holding.lockState = p) && decide (holding.core = core) then
    .ok () (held.filter fun holding => holding.lockState ≠ p)
  else .error (.panic incorrectOrigin) held

def lock (range : Range Index) (p : LockPtr) : HoldingM Index Unit := do
  if !(← tryLock debug core range p) then throw (.panic "deadlocked")

/-! The ways in which `tryLock` can end, in the order of its checks. -/

section TryLock
variable {debug : Bool} {core : Addr} {range : Range Index} {p : LockPtr}
  {held : List (Holding Index)}

theorem tryLock_empty (hempty : ¬ range.start < range.stop) :
    tryLock true core range p held = .error (.panic invalidRange) held := by
  simp [tryLock, hempty]

theorem tryLock_conflict (hrange : range.start < range.stop)
    (hconflict : held.any (conflicts core range p) = true) :
    tryLock debug core range p held = .ok false held := by
  have hnonempty : ¬ (debug && !decide (range.start < range.stop)) = true := by simp [hrange]
  rw [tryLock, if_neg hnonempty, if_pos hconflict]

theorem tryLock_used (hrange : range.start < range.stop)
    (hfree : held.any (conflicts core range p) = false)
    (hused : held.any (fun holding => holding.lockState = p) = true) :
    tryLock debug core range p held = .error (.panic stillInUse) held := by
  have hnonempty : ¬ (debug && !decide (range.start < range.stop)) = true := by simp [hrange]
  rw [tryLock, if_neg hnonempty, if_neg (Bool.eq_false_iff.mp hfree), if_pos hused]

theorem tryLock_free (hrange : range.start < range.stop)
    (hfree : held.any (conflicts core range p) = false)
    (hunused : ¬ held.any (fun holding => holding.lockState = p) = true) :
    tryLock debug core range p held = .ok true (⟨p, core, range⟩ :: held) := by
  have hnonempty : ¬ (debug && !decide (range.start < range.stop)) = true := by simp [hrange]
  rw [tryLock, if_neg hnonempty, if_neg (Bool.eq_false_iff.mp hfree), if_neg hunused]

end TryLock

end Holding

/-- What the method should do. -/
def Method.intended (debug : Bool) : Method Index → HoldingM Index Reply
  | .tryLock isWrite core range state => do
      return .locked (← Holding.tryLock debug core range (tryLockPtr isWrite state))
  | .lock isWrite core range state => do
      Holding.lock debug core range (tryLockPtr isWrite state)
      return .done
  | .unlockTry isWrite core state | .unlock isWrite core state => do
      Holding.unlock core (tryLockPtr isWrite state)
      return .done

/-! ## The invariant -/

section Invariant
variable {debug : Bool} {core state : Addr} {range : Range Index} {p : LockPtr} {s : State Index}
  {held : List (Holding Index)} {tables : Tables Index Empty Empty}

/-- Each table has the locks of `held`, all of them complete. -/
structure Listed (tables : Tables Index Empty Empty) (held : List (Holding Index)) : Prop where
  good : Good True tables
  locks : ∀ c p l, (tables c).locks p = some l ↔
    ∃ range, Holding.mk p c range ∈ held ∧ l = ⟨range.start, range.stop, some range.stop⟩
  queue : ∀ c, (tables c).queue = []

/-- No core is lent out, and `held` lists what is locked. -/
def Lists (s : State Index) (held : List (Holding Index)) : Prop :=
  s.borrowed = (fun _ => false) ∧ ∃ tables, Models tables s.store ∧ Listed tables held

theorem lists_init : Lists (State.init : State Index) [] := by
  refine ⟨rfl, (System.init : System Index Empty Empty).tables, ModelsWith.init, ?_, ?_, ?_⟩
  · exact (System.Run.init : System.Run False Nonempty _).good admissible_of_nonempty
  · intro c p l
    constructor
    · intro hl
      cases hl
    · intro hl
      obtain ⟨range, hmem, -⟩ := hl
      cases hmem
  · intro c
    rfl

theorem Listed.inUse (h : Listed tables held) :
    InUse tables p ↔ held.any (fun holding => holding.lockState = p) = true := by
  rw [List.any_eq_true]
  constructor
  · intro hused
    obtain ⟨c, l, hl⟩ := hused
    obtain ⟨range, hmem, -⟩ := (h.locks c p l).mp hl
    exact ⟨_, hmem, decide_eq_true rfl⟩
  · intro hany
    obtain ⟨⟨q, c, range⟩, hmem, hq⟩ := hany
    obtain rfl := of_decide_eq_true hq
    exact ⟨c, _, (h.locks c q _).mpr ⟨range, hmem, rfl⟩⟩

theorem Listed.locked (h : Listed tables held) : (∃ l, (tables core).locks p = some l) ↔
    held.any (fun holding => decide (holding.lockState = p) && decide (holding.core = core)) =
      true := by
  rw [List.any_eq_true]
  constructor
  · intro hlocked
    obtain ⟨l, hl⟩ := hlocked
    obtain ⟨range, hmem, -⟩ := (h.locks core p l).mp hl
    exact ⟨_, hmem, by simp⟩
  · intro hany
    obtain ⟨⟨q, c, range⟩, hmem, hq⟩ := hany
    obtain ⟨hq, hc⟩ := Bool.and_eq_true_iff.mp hq
    obtain rfl := of_decide_eq_true hq
    obtain rfl := of_decide_eq_true hc
    exact ⟨_, (h.locks c q _).mpr ⟨range, hmem, rfl⟩⟩

theorem conflict_eq_none_iff {other : Range Index} :
    (⟨other.start, other.stop, some other.stop⟩ : Lock Index).conflict range = none ↔
      ¬ (other.start < range.stop ∧ range.start < other.stop) := by
  by_cases hmeet : other.start < range.stop ∧ range.start < other.stop
  · simp [Lock.conflict, hmeet]
  · simp [Lock.conflict, hmeet]

theorem Listed.conflict (h : Listed tables held) : (tables core).firstConflict p range = none ↔
    held.any (Holding.conflicts core range p) = false := by
  have hsound := (h.good.quiet core).toSound
  rw [List.any_eq_false, Table.firstConflict, List.min?_eq_none_iff, List.filterMap_eq_nil_iff]
  constructor
  · intro hnone holding hmem hconflict
    obtain ⟨q, c, other⟩ := holding
    obtain ⟨hc, hmeet⟩ := Bool.and_eq_true_iff.mp hconflict
    obtain ⟨hc, hconf⟩ := Bool.and_eq_true_iff.mp hc
    have hc : c = core := of_decide_eq_true hc
    subst hc
    have hl := (h.locks c q _).mpr ⟨other, hmem, rfl⟩
    have hnot := hnone q ((hsound.mem_live q).mpr ⟨_, hl⟩)
    rw [if_pos hconf, hl, Option.bind_some, conflict_eq_none_iff] at hnot
    exact hnot (of_decide_eq_true hmeet)
  · intro hnone q hq
    split
    · next hconf =>
        obtain ⟨l, hl⟩ := (hsound.mem_live q).mp hq
        obtain ⟨other, hmem, rfl⟩ := (h.locks core q l).mp hl
        rw [hl, Option.bind_some, conflict_eq_none_iff]
        intro hmeet
        apply hnone _ hmem
        simp [Holding.conflicts, hconf, hmeet.1, hmeet.2]
    · rfl

/-- The core has locked `range` for `p`. -/
theorem Listed.add (h : Listed tables held) (hp : ¬ InUse tables p)
    (hgood : Good True (Function.update tables core
      ((tables core).add p range (some range.stop)))) :
    Listed (Function.update tables core ((tables core).add p range (some range.stop)))
      (⟨p, core, range⟩ :: held) := by
  refine ⟨hgood, fun c q l => ?_, fun c => ?_⟩
  · have hfree : ∀ c range, Holding.mk p c range ∉ held := by
      intro c range hmem
      exact hp ⟨c, _, (h.locks c p _).mpr ⟨range, hmem, rfl⟩⟩
    by_cases hq : q = p
    · subst hq
      by_cases hc : c = core
      · subst hc
        rw [Function.update_self, Table.add_locks, if_pos rfl]
        constructor
        · intro hl
          exact ⟨range, List.mem_cons_self, (Option.some.inj hl).symm⟩
        · intro hl
          obtain ⟨other, hmem, rfl⟩ := hl
          rcases List.mem_cons.mp hmem with heq | hmem
          · obtain rfl := (Holding.mk.inj heq).2.2
            rfl
          · exact absurd hmem (hfree c other)
      · rw [Function.update_of_ne hc, locks_eq_none_of_not_inUse hp c]
        constructor
        · intro hl
          cases hl
        · intro hl
          obtain ⟨other, hmem, -⟩ := hl
          rcases List.mem_cons.mp hmem with heq | hmem
          · exact absurd (Holding.mk.inj heq).2.1 hc
          · exact absurd hmem (hfree c other)
    · have hlocks : (Function.update tables core
          ((tables core).add p range (some range.stop)) c).locks q = (tables c).locks q := by
        by_cases hc : c = core
        · rw [hc, Function.update_self, Table.add_locks, if_neg hq]
        · rw [Function.update_of_ne hc]
      rw [hlocks, h.locks]
      apply exists_congr
      intro other
      simp [hq]
  · by_cases hc : c = core
    · rw [hc, Function.update_self, Table.add_queue]
      exact h.queue core
    · rw [Function.update_of_ne hc]
      exact h.queue c

theorem Listed.unlock_eq (h : Listed tables held) :
    (tables core).unlock p = (tables core).forget p := by
  have hdequeue : (tables core).dequeue p = tables core := by
    apply Table.dequeue_self
    rw [h.queue core]
    exact List.not_mem_nil
  have hwaiters : (tables core).waitersOf p = [] := by
    unfold Table.waitersOf
    rw [h.queue core]
    split <;> rfl
  unfold Table.unlock
  rw [hdequeue, hwaiters]
  rfl

/-- The core has unlocked `p`. -/
theorem Listed.remove (h : Listed tables held) {l : Lock Index}
    (hl : (tables core).locks p = some l)
    (hgood : Good True (Function.update tables core ((tables core).forget p))) :
    Listed (Function.update tables core ((tables core).forget p))
      (held.filter fun holding => holding.lockState ≠ p) := by
  refine ⟨hgood, fun c q l' => ?_, fun c => ?_⟩
  · have hmem : ∀ other, Holding.mk q c other ∈ held.filter (fun holding => holding.lockState ≠ p) ↔
        q ≠ p ∧ Holding.mk q c other ∈ held := by
      intro other
      rw [List.mem_filter, and_comm, decide_eq_true_iff]
    simp only [hmem, and_assoc, exists_and_left, ← h.locks]
    by_cases hq : q = p
    · subst hq
      have hnone : (Function.update tables core ((tables core).forget q) c).locks q = none := by
        by_cases hc : c = core
        · rw [hc, Function.update_self, Table.forget_locks, if_pos rfl]
        · rw [Function.update_of_ne hc]
          by_contra hsome
          obtain ⟨l'', hl''⟩ := Option.ne_none_iff_exists'.mp hsome
          exact hc (h.good.apart c core q l'' l hl'' hl)
      simp [hnone]
    · have hlocks : (Function.update tables core ((tables core).forget p) c).locks q =
          (tables c).locks q := by
        by_cases hc : c = core
        · rw [hc, Function.update_self, Table.forget_locks, if_neg hq]
        · rw [Function.update_of_ne hc]
      simp [hlocks, hq]
  · by_cases hc : c = core
    · rw [hc, Function.update_self]
      exact h.queue core
    · rw [Function.update_of_ne hc]
      exact h.queue c

/-! ## The operations keep it -/

omit [LinearOrder Index] in
theorem lend_back (h : s.borrowed = fun _ => false) (store : Store Index Empty Empty) :
    (lend core { lend core s true with store := store } false).borrowed = fun _ => false := by
  show Function.update (Function.update s.borrowed core true) core false = fun _ => false
  rw [Function.update_idem, h, Function.update_eq_self_iff]

/-- A method of the core does what it should, or panics as it should and changes nothing. -/
theorem borrowCore_agree {α : Type} {method : CoreM Index Empty Empty α}
    {intended : HoldingM Index α}
    (h : Lists s held) (hmethod :
      Runs method ⟨s.store, []⟩ (fun a w => ∃ held' tables, intended held = .ok a held' ∧
        Models tables w.store ∧ Listed tables held') ∨
      ∃ message, Panics method ⟨s.store, []⟩ message (fun w => w.store = s.store) ∧
        intended held = .error (.panic message) held) :
    Agree Lists (borrowCore core method s) (intended held) := by
  obtain ⟨hborrowed, tables, hmodels, hlisted⟩ := h
  have hfree : ¬ s.borrowed core = true := by
    rw [hborrowed]
    exact Bool.false_ne_true
  have hstore : (lend core s true).store = s.store := rfl
  unfold borrowCore
  rw [if_neg hfree]
  simp only [hstore]
  rcases hmethod with hruns | ⟨message, hpanics, hintended⟩
  · obtain ⟨a, w, hrun, held', tables', hintended, hmodels', hlisted'⟩ := hruns
    rw [hrun, hintended]
    exact .ok a ⟨lend_back hborrowed w.store, tables', hmodels', hlisted'⟩
  · obtain ⟨w, hrun, hsame⟩ := hpanics
    rw [hrun, hintended]
    refine .error _ ⟨lend_back hborrowed w.store, tables, ?_, hlisted⟩
    show Models tables w.store
    rw [hsame]
    exact hmodels

/-- `try_lock_*` does what it should, if the range is not empty. -/
theorem Listed.tryLock (h : Listed tables held) {store : Store Index Empty Empty}
    (hmodels : Models tables store) (isWrite : Bool) (hrange : range.start < range.stop) :
    Runs (Call.perform debug (.tryLock isWrite core state range)) ⟨store, []⟩ (fun reply w =>
      ∃ success held' tables', reply = .locked success ∧
        Holding.tryLock debug core range (tryLockPtr isWrite state) held = .ok success held' ∧
        Models tables' w.store ∧ Listed tables' held') ∨
    Panics (Call.perform debug (.tryLock isWrite core state range)) ⟨store, []⟩ stillInUse
        (fun w => w.store = store) ∧
      Holding.tryLock debug core range (tryLockPtr isWrite state) held =
        .error (.panic stillInUse) held := by
  have hsimulates : Simulates (⟨store, []⟩ : World Index Empty Empty) ⟨tables, []⟩ :=
    ⟨hmodels, List.Forall₂.nil⟩
  have hreturns : _ → Runs (Call.perform debug (.tryLock isWrite core state range)) ⟨store, []⟩ _ :=
    tryLock_returns hsimulates h.good (fun _ => trivial) isWrite core state
      (admissible_of_nonempty _ range hrange)
  by_cases hconflict : (tables core).firstConflict (tryLockPtr isWrite state) range = none
  · have hany := h.conflict.mp hconflict
    by_cases hused : InUse tables (tryLockPtr isWrite state)
    · right
      refine ⟨?_, Holding.tryLock_used hrange hany (h.inUse.mp hused)⟩
      exact (Call.panics admissible_of_nonempty False hsimulates h.good (fun _ => trivial)
        (.tryLock isWrite core state range) hrange ⟨hconflict, hused⟩).mono fun w hw => hw.1
    · left
      have hstep : System.Step False Nonempty (⟨tables, []⟩ : System Index Empty Empty) _ :=
        .tryLock isWrite core state hrange fun _ => hused
      have hgood := hstep.good admissible_of_nonempty h.good
      have htables : ((⟨tables, []⟩ : System Index Empty Empty).tryLock core
          (tryLockPtr isWrite state) range).tables = Function.update tables core
            ((tables core).add (tryLockPtr isWrite state) range (some range.stop)) := by
        rw [System.tryLock, System.put_tables, Table.tryLock, hconflict]
      refine (hreturns fun _ => hused).mono fun reply w hw => ?_
      obtain ⟨hw, hreply, -⟩ := hw
      have hmodels' := hw.models
      rw [htables] at hmodels'
      rw [System.returned, System.note_tables, htables] at hgood
      rw [hconflict] at hreply
      refine ⟨true, _, _, hreply, ?_, hmodels', h.add hused hgood⟩
      exact Holding.tryLock_free hrange hany (mt h.inUse.mpr hused)
  · left
    have hany : held.any (Holding.conflicts core range (tryLockPtr isWrite state)) = true := by
      by_contra hnot
      exact hconflict (h.conflict.mpr (Bool.eq_false_iff.mpr hnot))
    have hisNone := Bool.eq_false_iff.mpr (mt Option.isNone_iff_eq_none.mp hconflict)
    refine (hreturns fun hnone => absurd hnone hconflict).mono fun reply w hw => ?_
    obtain ⟨-, hreply, hsame⟩ := hw
    rw [hisNone] at hreply
    obtain rfl := hsame hreply
    exact ⟨false, held, tables, hreply, Holding.tryLock_conflict hrange hany, hmodels, h⟩

theorem tryLock_agree (h : Lists s held) (isWrite : Bool)
    (haccepted : debug = false → range.start < range.stop) :
    Agree Lists ((if isWrite then tryLockWrite debug core range state
        else tryLockRead debug core range state) s)
      (Holding.tryLock debug core range (tryLockPtr isWrite state) held) := by
  set call : Call Index Empty Empty := .tryLock isWrite core state range with hcall
  set method : CoreM Index Empty Empty Bool :=
    if isWrite then Core.tryLockWrite debug core range state
    else Core.tryLockRead debug core range state with hmethod
  have hperform : call.perform debug = Core.Reply.locked <$> method := (map_eq_pure_bind _ _).symm
  have hborrow : (if isWrite then tryLockWrite debug core range state
      else tryLockRead debug core range state) = borrowCore core method := by
    rw [hmethod]
    cases isWrite <;> rfl
  rw [hborrow]
  apply borrowCore_agree h
  obtain ⟨-, tables, hmodels, hlisted⟩ := h
  by_cases hrange : range.start < range.stop
  · rcases hlisted.tryLock hmodels isWrite hrange with hruns | ⟨hpanics, hintended⟩
    · left
      rw [← hcall, hperform, runs_map] at hruns
      refine hruns.mono fun success w hw => ?_
      obtain ⟨success', held', tables', hreply, hw⟩ := hw
      obtain rfl := Core.Reply.locked.inj hreply
      exact ⟨held', tables', hw⟩
    · right
      rw [← hcall, hperform, panics_map] at hpanics
      exact ⟨_, hpanics, hintended⟩
  · right
    have hdebug : debug = true := by
      by_contra hnot
      exact hrange (haccepted (Bool.eq_false_iff.mpr hnot))
    have hempty : ¬ call.Accepted Nonempty := hrange
    have hpanics := Call.rejects hempty ⟨s.store, []⟩
    subst hdebug
    rw [hperform, panics_map] at hpanics
    exact ⟨_, hpanics.mono fun w hw => congrArg World.store hw, Holding.tryLock_empty hrange⟩

theorem unlock_agree (h : Lists s held) (isWrite : Bool) :
    Agree Lists ((if isWrite then unlockTryWrite debug core state
        else unlockTryRead debug core state) s)
      (Holding.unlock core (tryLockPtr isWrite state) held) := by
  set call : Call Index Empty Empty := .unlock core (tryLockPtr isWrite state) with hcall
  set method : CoreM Index Empty Empty Unit := if isWrite then Core.unlockTryWrite debug core state
    else Core.unlockTryRead debug core state with hmethod
  have hperform : call.perform debug = (fun _ => Core.Reply.unlocked none) <$> method := by
    rw [map_eq_pure_bind, hmethod, hcall]
    cases isWrite <;> rfl
  have hborrow : (if isWrite then unlockTryWrite debug core state
      else unlockTryRead debug core state) = borrowCore core method := by
    rw [hmethod]
    cases isWrite <;> rfl
  rw [hborrow]
  apply borrowCore_agree h
  obtain ⟨-, tables, hmodels, hlisted⟩ := h
  have hsimulates : Simulates (⟨s.store, []⟩ : World Index Empty Empty) ⟨tables, []⟩ :=
    ⟨hmodels, List.Forall₂.nil⟩
  cases hl : (tables core).locks (tryLockPtr isWrite state) with
  | some l =>
      left
      have hruns : Runs (call.perform debug) ⟨s.store, []⟩ fun _ w => Simulates w
          ((⟨tables, []⟩ : System Index Empty Empty).unlock core (tryLockPtr isWrite state)) :=
        (unlock_returns hsimulates hlisted.good (fun _ => trivial) core
          (tryLockPtr isWrite state) hl).mono fun _ w hw => hw.1
      rw [hperform, runs_map] at hruns
      refine hruns.mono fun _ w hw => ?_
      have hmodels' := hw.models
      have hstep : System.Step False Nonempty (⟨tables, []⟩ : System Index Empty Empty) _ :=
        .unlock core (tryLockPtr isWrite state) hl
      have hgood := hstep.good admissible_of_nonempty hlisted.good
      have htables : ((⟨tables, []⟩ : System Index Empty Empty).unlock core
          (tryLockPtr isWrite state)).tables = Function.update tables core
            ((tables core).forget (tryLockPtr isWrite state)) := by
        rw [System.unlock_tables, hlisted.unlock_eq]
      rw [htables] at hmodels'
      refine ⟨_, _, ?_, hmodels', hlisted.remove hl ?_⟩
      · unfold Holding.unlock
        rw [if_pos (hlisted.locked.mp ⟨l, hl⟩)]
      · rw [← htables]
        exact hgood
  | none =>
      right
      have hpanics : Panics (call.perform debug) ⟨s.store, []⟩ incorrectOrigin fun w =>
          w.store = s.store :=
        (Call.panics admissible_of_nonempty False hsimulates hlisted.good (fun _ => trivial) call
          trivial hl).mono fun w hw => hw.1
      rw [hperform, panics_map] at hpanics
      refine ⟨_, hpanics, ?_⟩
      have hnot : ¬ held.any
        (fun holding => decide (holding.lockState = tryLockPtr isWrite state) &&
          decide (holding.core = core)) = true := by
        intro hany
        obtain ⟨l, hl'⟩ := hlisted.locked.mpr hany
        rw [hl] at hl'
        cases hl'
      unfold Holding.unlock
      rw [if_neg hnot]

/-- A method does what it should. -/
theorem Method.agree (h : Lists s held) (method : Method Index)
    (haccepted : debug = false → method.Accepted) :
    Agree Lists (method.perform debug s) (method.intended debug held) := by
  have hunlock : ∀ isWrite core state, Agree Lists
      ((Method.unlockTry isWrite core state).perform debug s)
      ((Method.unlockTry isWrite core state).intended debug held) := by
    intro isWrite core state
    have hperform : Method.perform debug (.unlockTry isWrite core state : Method Index) =
      (if isWrite
        then unlockTryWrite debug core state else unlockTryRead debug core state) >>=
          fun _ => pure Reply.done := by
      cases isWrite <;> rfl
    rw [hperform]
    apply (unlock_agree h isWrite).bind
    intro _ s held h
    exact .ok _ h
  cases method with
  | tryLock isWrite core range state =>
      apply (tryLock_agree h isWrite haccepted).bind
      intro success s held h
      exact .ok _ h
  | lock isWrite core range state =>
      have hlock : Agree Lists ((if isWrite then lockWrite debug core range state
          else lockRead debug core range state) s)
          (Holding.lock debug core range (tryLockPtr isWrite state) held) := by
        have hbind : (if isWrite then lockWrite debug core range state
            else lockRead debug core range state) = (if isWrite
              then tryLockWrite debug core range state else tryLockRead debug core range state) >>=
                fun success => if !success then deadlocked else pure () := by
          cases isWrite <;> rfl
        rw [hbind]
        apply (tryLock_agree h isWrite haccepted).bind
        intro success s held h
        cases success with
        | true => exact .ok () h
        | false => exact .error _ h
      have hperform : Method.perform debug (.lock isWrite core range state) = (if isWrite
          then lockWrite debug core range state else lockRead debug core range state) >>=
            fun _ => pure Reply.done := by
        cases isWrite <;> rfl
      rw [hperform]
      apply hlock.bind
      intro _ s held h
      exact .ok _ h
  | unlockTry isWrite core state => exact hunlock isWrite core state
  | unlock isWrite core state =>
      have hperform : Method.perform debug (.unlock isWrite core state : Method Index) =
          Method.perform debug (.unlockTry isWrite core state) := by
        cases isWrite <;> rfl
      rw [hperform]
      exact hunlock isWrite core state

/-- What the memory says is what `held` says, and nobody waits. -/
structure State.Represents (s : State Index) (held : List (Holding Index)) : Prop where
  released : ∀ core, s.borrowed core = false
  listed : ∀ p core range, Holding.mk p core range ∈ held ↔
    s.store.parent p = some core ∧ s.store.region p = some range
  locked : ∀ p core, s.store.parent p = some core → ∃ range, Holding.mk p core range ∈ held
  settled : ∀ p, s.store.waiter p = none
  /-- No index is held twice, unless both times for reading. -/
  exclusive : ∀ p q core range range', Holding.mk p core range ∈ held →
    Holding.mk q core range' ∈ held → q ≠ p → conflicting p q = true →
    ∀ i, range.start ≤ i → i < range.stop → ¬ (range'.start ≤ i ∧ i < range'.stop)

theorem Lists.represents (h : Lists s held) : s.Represents held := by
  obtain ⟨hborrowed, tables, hmodels, hlisted⟩ := h
  have hregion : ∀ {p core range}, Holding.mk p core range ∈ held →
      s.store.parent p = some core ∧ s.store.region p = some range := by
    intro p core range hmem
    have hl := (hlisted.locks core p _).mpr ⟨range, hmem, rfl⟩
    exact ⟨hmodels.parent_eq hl, hmodels.region_eq hl⟩
  have hlive : ∀ p core, s.store.parent p = some core →
      ∃ range, Holding.mk p core range ∈ held := by
    intro p core hp
    obtain ⟨l, hl⟩ := hmodels.exists_lock hp
    obtain ⟨range, hmem, -⟩ := (hlisted.locks core p l).mp hl
    exact ⟨range, hmem⟩
  refine ⟨fun core => by rw [hborrowed], fun p core range => ⟨hregion, fun hp => ?_⟩, hlive,
    fun p => ?_, ?_⟩
  · obtain ⟨hp, hrange⟩ := hp
    obtain ⟨range', hmem⟩ := hlive p core hp
    rw [(hregion hmem).2] at hrange
    obtain rfl := Option.some.inj hrange
    exact hmem
  · apply hmodels.waiter_eq_none
    intro c
    rw [hlisted.queue c]
    exact List.not_mem_nil
  · intro p q core range range' hp hq hne hconf i hstart hstop hi
    have hl := (hlisted.locks core p _).mpr ⟨range, hp, rfl⟩
    have hl' := (hlisted.locks core q _).mpr ⟨range', hq, rfl⟩
    exact (hlisted.good.quiet core).exclusive p _ i hl ⟨hstart, hstop⟩ q _ hne hl' hconf hi

end Invariant

/-- Whatever methods are called one after the other, on whatever locks, each of them answers as the
list of the ranges that are held makes it answer, or panics as the list makes it panic. -/
theorem session_intended (debug : Bool) (methods : List (Method Index))
    (haccepted : debug = false → ∀ method ∈ methods, method.Accepted) :
    (session (Method.perform debug) methods .init).1 =
        (session (Method.intended debug) methods []).1 ∧
      (session (Method.perform debug) methods .init).2.Represents
        (session (Method.intended debug) methods []).2 := by
  have hstep : ∀ method ∈ methods, ∀ (s : State Index) (held : List (Holding Index)), Lists s held →
      Agree Lists (method.perform debug s) (method.intended debug held) :=
    fun method hmem s held h => method.agree h fun hdebug => haccepted hdebug method hmem
  obtain ⟨hanswers, hlists⟩ := session_agree hstep lists_init
  exact ⟨hanswers, hlists.represents⟩

-- The debug assertion on the range fails inside `borrow_core!`, which gives the core back.
example : (session (Method.perform true)
    [.lock false (slot 0) ⟨5, 5⟩ (slot 1), .tryLock true (slot 0) ⟨0, 10⟩ (slot 2)]
    (.init : State ℕ)).1 = [.error (.panic "invalid range"), .ok (.locked true)] := by
  rfl

/-- To lock `5..15` for reading would have to wait until `0..10` is no more held for writing. -/
theorem session_intended_deadlock : ∃ methods : List (Method ℕ),
    (session (Method.perform false) methods .init).1 =
      [.ok (.locked true), .error (.panic "deadlocked"), .ok .done, .ok .done] ∧
    (session (Method.perform false) methods .init).2.Represents
      (session (Method.intended false) methods []).2 := by
  set methods : List (Method ℕ) := [.tryLock true (slot 0) ⟨0, 10⟩ (slot 1),
    .lock false (slot 0) ⟨5, 15⟩ (slot 2), .unlockTry true (slot 0) (slot 1),
    .lock false (slot 0) ⟨5, 15⟩ (slot 2)] with hmethods
  have haccepted : ∀ method ∈ methods, method.Accepted := by
    simp [hmethods, Method.Accepted]
  obtain ⟨hanswers, hrepresents⟩ := session_intended false methods fun _ => haccepted
  exact ⟨methods, hanswers.trans rfl, hrepresents⟩

end Interlock.Raw.Local
