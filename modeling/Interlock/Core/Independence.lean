import Interlock.Core.Client
import Interlock.Core.Unchecked

/-!
# Locks do not disturb each other

All cores and all lock states are in one memory, and a lock state may serve one core after the
other.  Nevertheless the calls on one core, among those on other cores, answer as they would if
there were no other core.

A call does to the table of its core what this table determines, and leaves the other tables alone.
`SameAt` says that two systems cannot be told apart by calls on one core.
-/

namespace Interlock.Core

open Memory RbTree

variable {Index Priority InProgress : Type} [LinearOrder Index] [LinearOrder Priority]

namespace System
variable {misuse : Prop} {accepts : LockPtr → Range Index → Prop}
  {σ σ' : System Index Priority InProgress} {core c : Addr} {p : LockPtr}
  {call : Call Index Priority InProgress} {s : Table Index Priority InProgress}

/-- The reply of a call that is no misuse, and what it leaves behind. -/
def answer (σ : System Index Priority InProgress) :
    Call Index Priority InProgress → Reply InProgress × System Index Priority InProgress
  | .lock isWrite core state range priority inProgress =>
      (.locked ((σ.tables core).firstConflict (lockPtr isWrite state) range).isNone,
        σ.lock core (lockPtr isWrite state) range priority inProgress)
  | .tryLock isWrite core state range =>
      (.locked ((σ.tables core).firstConflict (tryLockPtr isWrite state) range).isNone,
        σ.tryLock core (tryLockPtr isWrite state) range)
  | .unlock core p => (.unlocked ((σ.tables core).waiting p), σ.unlock core p)
  | .inspect isWrite core state write =>
      (.inspected (((σ.tables core).waiting (lockPtr isWrite state)).elim .complete .inProgress),
        σ.write core (lockPtr isWrite state) write)

theorem answer_step (haccepted : call.Accepted accepts) (hproper : ¬ Misused σ.tables call) :
    Step misuse accepts σ ((σ.answer call).2.returned call (σ.answer call).1) := by
  cases call with
  | lock isWrite core state range priority inProgress =>
      exact .lock isWrite core state priority inProgress haccepted hproper
  | tryLock isWrite core state range =>
      exact .tryLock isWrite core state haccepted (not_and.mp hproper)
  | unlock core p =>
      obtain ⟨l, hl⟩ := Option.ne_none_iff_exists'.mp hproper
      exact .unlock core p hl
  | inspect isWrite core state write =>
      obtain ⟨l, hl⟩ := Option.ne_none_iff_exists'.mp hproper
      exact .inspect isWrite core state write hl

theorem answer_tables_of_ne (hc : c ≠ call.core) : (σ.answer call).2.tables c = σ.tables c := by
  cases call with
  | lock => exact Function.update_of_ne hc _ _
  | tryLock => exact Function.update_of_ne hc _ _
  | unlock core p =>
      show (σ.unlock core p).tables c = σ.tables c
      rw [unlock_tables]
      exact Function.update_of_ne hc _ _
  | inspect => exact Function.update_of_ne hc _ _

/-! ## Systems with the same table for one core -/

/-- The same events have happened, and the table of `core` is the same. -/
structure SameAt (core : Addr) (σ σ' : System Index Priority InProgress) : Prop where
  table : σ.tables core = σ'.tables core
  history : σ.history = σ'.history

omit [LinearOrder Index] [LinearOrder Priority] in
theorem SameAt.put (h : SameAt core σ σ') (s : Table Index Priority InProgress) :
    SameAt core (σ.put core s) (σ'.put core s) := by
  refine ⟨?_, h.history⟩
  rw [put_tables, put_tables, Function.update_self, Function.update_self]

omit [LinearOrder Index] [LinearOrder Priority] in
theorem SameAt.note (h : SameAt core σ σ')
    {event event' : Event Index Priority InProgress (Tables Index Priority InProgress)}
    (hevent : event.erase = event'.erase) : SameAt core (σ.note event) (σ'.note event') := by
  refine ⟨h.table, ?_⟩
  show event.erase :: σ.history = event'.erase :: σ'.history
  rw [hevent, h.history]

omit [LinearOrder Index] [LinearOrder Priority] in
theorem SameAt.change (h : SameAt core σ σ')
    (f : Table Index Priority InProgress → Table Index Priority InProgress) :
    SameAt core (σ.put core (f (σ.tables core))) (σ'.put core (f (σ'.tables core))) := by
  rw [← h.table]
  exact h.put _

theorem SameAt.resumeAt (h : SameAt core σ σ') (x : LockPtr × Pending Index Priority InProgress)
    (conflict : Option Index) : SameAt core (σ.resumeAt core x conflict)
      (σ'.resumeAt core x conflict) := by
  unfold System.resumeAt
  rw [← h.table]
  cases conflict with
  | some i => exact h.put _
  | none =>
      set σ₁ := σ.put core ((σ.tables core).dequeue x.1) with hσ₁
      set σ₁' := σ'.put core ((σ.tables core).dequeue x.1) with hσ₁'
      have hdequeue : SameAt core σ₁ σ₁' := h.put _
      have hnote : SameAt core (σ₁.note (.complete x.1 x.2.inProgress σ₁.tables))
          (σ₁'.note (.complete x.1 x.2.inProgress σ₁'.tables)) := hdequeue.note rfl
      exact hnote.put ((σ.tables core).resumeAt x none)

theorem SameAt.visit (h : SameAt core σ σ') (x : LockPtr × Pending Index Priority InProgress) :
    SameAt core (σ.visit core p x) (σ'.visit core p x) := by
  set σ₁ := σ.put core ((σ.tables core).truncate p x.2.range.start) with hσ₁
  set σ₁' := σ'.put core ((σ'.tables core).truncate p x.2.range.start) with hσ₁'
  have htruncate : SameAt core σ₁ σ₁' := h.change fun s => s.truncate p x.2.range.start
  have hresuming : SameAt core (σ₁.note (.resuming x.1 σ₁.tables))
      (σ₁'.note (.resuming x.1 σ₁'.tables)) := htruncate.note rfl
  unfold System.visit
  rw [← h.table]
  rw [← h.table] at hσ₁'
  exact (hresuming.resumeAt x _).note rfl

theorem SameAt.release (h : SameAt core σ σ')
    (visits : List (LockPtr × Pending Index Priority InProgress)) :
    SameAt core (σ.release core p visits) (σ'.release core p visits) := by
  induction visits generalizing σ σ' with
  | nil => exact h
  | cons x visits ih => exact ih (h.visit x)

theorem SameAt.unlock (h : SameAt core σ σ') :
    SameAt core (σ.unlock core p) (σ'.unlock core p) := by
  set σ₁ := σ.put core ((σ.tables core).dequeue p) with hσ₁
  set σ₁' := σ'.put core ((σ'.tables core).dequeue p) with hσ₁'
  have hdequeue : SameAt core σ₁ σ₁' := h.change fun s => s.dequeue p
  have hrelease : SameAt core (σ₁.release core p ((σ₁.tables core).waitersOf p))
      (σ₁'.release core p ((σ₁'.tables core).waitersOf p)) := by
    rw [← hdequeue.table]
    exact hdequeue.release _
  exact hrelease.change fun s => s.forget p

theorem SameAt.lock (h : SameAt core σ σ') (range : Range Index) (priority : Priority)
    (inProgress : InProgress) : SameAt core (σ.lock core p range priority inProgress)
      (σ'.lock core p range priority inProgress) := by
  unfold System.lock System.lockAt
  rw [← h.table]
  apply SameAt.put
  apply h.note
  cases (σ.tables core).firstConflict p range <;> rfl

/-- A call on this core does the same in both. -/
theorem SameAt.answer (h : SameAt core σ σ') (hcall : call.core = core) :
    (σ.answer call).1 = (σ'.answer call).1 ∧ SameAt core (σ.answer call).2 (σ'.answer call).2 := by
  have htable := h.table
  cases call with
  | lock isWrite c state range priority inProgress =>
      have hc : c = core := hcall
      subst hc
      constructor
      · show Reply.locked ((σ.tables c).firstConflict _ range).isNone = _
        rw [htable]
        rfl
      · exact h.lock range priority inProgress
  | tryLock isWrite c state range =>
      have hc : c = core := hcall
      subst hc
      constructor
      · show Reply.locked ((σ.tables c).firstConflict _ range).isNone = _
        rw [htable]
        rfl
      · exact h.change fun s => s.tryLock (tryLockPtr isWrite state) range
  | unlock c p =>
      have hc : c = core := hcall
      subst hc
      constructor
      · show Reply.unlocked ((σ.tables c).waiting p) = _
        rw [htable]
        rfl
      · exact h.unlock
  | inspect isWrite c state write =>
      have hc : c = core := hcall
      subst hc
      constructor
      · show Reply.inspected (((σ.tables c).waiting _).elim .complete .inProgress) = _
        rw [htable]
        rfl
      · exact h.change fun s => s.write (lockPtr isWrite state) write

omit [LinearOrder Priority] in
/-- What is no misuse is none without the locks of the other cores. -/
theorem SameAt.proper (h : SameAt core σ σ') (hcall : call.core = core)
    (hsolo : ∀ c, c ≠ core → ∀ p, (σ'.tables c).locks p = none)
    (hproper : ¬ Misused σ.tables call) : ¬ Misused σ'.tables call := by
  have hused : ∀ p, InUse σ'.tables p → InUse σ.tables p := by
    intro p hp
    obtain ⟨c, l, hl⟩ := hp
    by_cases hc : c = core
    · subst hc
      exact ⟨c, l, by rw [h.table, hl]⟩
    · rw [hsolo c hc p] at hl
      cases hl
  intro hmisused
  apply hproper
  cases call with
  | lock isWrite c state range priority inProgress => exact hused _ hmisused
  | tryLock isWrite c state range =>
      have hc : c = core := hcall
      subst hc
      obtain ⟨hconflict, hp⟩ := hmisused
      refine ⟨?_, hused _ hp⟩
      rw [h.table]
      exact hconflict
  | unlock c p =>
      have hc : c = core := hcall
      subst hc
      show (σ.tables c).locks p = none
      rw [h.table]
      exact hmisused
  | inspect isWrite c state write =>
      have hc : c = core := hcall
      subst hc
      show (σ.tables c).locks (lockPtr isWrite state) = none
      rw [h.table]
      exact hmisused

end System

/-! ## Calls -/

section Calls
variable {strict : Prop} {debug : Bool} {accepts : LockPtr → Range Index → Prop}
  {world : World Index Priority InProgress} {σ : System Index Priority InProgress}
  {tables tables' : Tables Index Priority InProgress}
  {store store' : Store Index Priority InProgress}
  {core : Addr} {call : Call Index Priority InProgress}

theorem Call.answers (h : Simulates world σ) (hgood : Good strict σ.tables)
    (hdebug : debug = true → strict) (call : Call Index Priority InProgress)
    (haccepts : ∀ p range, accepts p range → Table.Admissible strict p range)
    (haccepted : call.Accepted accepts) (hproper : ¬ System.Misused σ.tables call) :
    Runs (call.perform debug) world fun reply w =>
      reply = (σ.answer call).1 ∧ Simulates w (σ.answer call).2 := by
  cases call with
  | lock isWrite core state range priority inProgress =>
      have hruns := lock_returns h hgood hdebug isWrite core state (haccepts _ _ haccepted) hproper
        priority inProgress
      exact hruns.mono fun reply w hw => ⟨hw.2.1, hw.1⟩
  | tryLock isWrite core state range =>
      have hruns := tryLock_returns h hgood hdebug isWrite core state (haccepts _ _ haccepted)
        (not_and.mp hproper)
      exact hruns.mono fun reply w hw => ⟨hw.2.1, hw.1⟩
  | unlock core p =>
      obtain ⟨l, hl⟩ := Option.ne_none_iff_exists'.mp hproper
      have hruns := unlock_returns h hgood hdebug core p hl
      exact hruns.mono fun reply w hw => ⟨hw.2, hw.1⟩
  | inspect isWrite core state write =>
      obtain ⟨l, hl⟩ := Option.ne_none_iff_exists'.mp hproper
      exact (inspect_returns h hgood.coherent isWrite core state write hl).mono
        fun reply w hw => ⟨hw.2, hw.1⟩

/-- A call, and what its caller can observe: the reply and the events. -/
def Call.observe (debug : Bool) (call : Call Index Priority InProgress) :
    EStateM Fault (Store Index Priority InProgress)
      (Reply InProgress × History Index Priority InProgress) := fun store =>
  match call.perform debug ⟨store, []⟩ with
  | .ok reply w => .ok (reply, w.history) w.store
  | .error fault w => .error fault w.store

/-- Between calls that are no misuse. -/
def Store.Between (store : Store Index Priority InProgress)
    (tables : Tables Index Priority InProgress) : Prop := Models tables store ∧ Good True tables

theorem Store.Between.observe (h : store.Between tables) (hcall : call.Accepted Nonempty)
    (hproper : ¬ System.Misused tables call) : ∃ store',
      call.observe debug store = .ok ((System.answer ⟨tables, []⟩ call).1,
        (System.answer ⟨tables, []⟩ call).2.history) store' ∧
      store'.Between (System.answer ⟨tables, []⟩ call).2.tables := by
  obtain ⟨hmodels, hgood⟩ := h
  have hsimulates : Simulates (⟨store, []⟩ : World Index Priority InProgress) ⟨tables, []⟩ :=
    ⟨hmodels, List.Forall₂.nil⟩
  obtain ⟨reply, w, hrun, hreply, hw⟩ := Call.answers hsimulates hgood (fun _ => trivial) call
    admissible_of_nonempty hcall hproper
  have hstep : System.Step False Nonempty (⟨tables, []⟩ : System Index Priority InProgress) _ :=
    System.answer_step hcall hproper
  have hgood' := hstep.good admissible_of_nonempty hgood
  refine ⟨w.store, ?_, hw.models, hgood'⟩
  unfold Call.observe
  rw [hrun, hreply, ← hw.history_eq]

/-- A call that returns is no misuse. -/
theorem Store.Between.proper (h : store.Between tables) (hcall : call.Accepted Nonempty)
    {answer : Reply InProgress × History Index Priority InProgress}
    (hok : call.observe debug store = .ok answer store') : ¬ System.Misused tables call := by
  intro hmisused
  obtain ⟨hmodels, hgood⟩ := h
  have hsimulates : Simulates (⟨store, []⟩ : World Index Priority InProgress) ⟨tables, []⟩ :=
    ⟨hmodels, List.Forall₂.nil⟩
  have hpanics : Panics (call.perform debug) ⟨store, []⟩ call.misuseMessage _ :=
    Call.panics admissible_of_nonempty False hsimulates hgood (fun _ => trivial) call hcall hmisused
  obtain ⟨w, hrun, -⟩ := hpanics
  rw [Call.observe, hrun] at hok
  cases hok

/-! ## Sessions -/

/-- `store'` is what `store` is for calls on `core`, and no other core has locks there. -/
def Store.Alone (core : Addr) (store store' : Store Index Priority InProgress) : Prop :=
  ∃ tables tables' : Tables Index Priority InProgress, store.Between tables ∧
    store'.Between tables' ∧
    tables core = tables' core ∧ ∀ c, c ≠ core → ∀ p, (tables' c).locks p = none

theorem Store.Alone.init :
    Store.Alone core (Store.init : Store Index Priority InProgress) Store.init := by
  have hbetween : (Store.init : Store Index Priority InProgress).Between System.init.tables :=
    ⟨ModelsWith.init, (System.Run.init : System.Run False Nonempty _).good admissible_of_nonempty⟩
  exact ⟨_, _, hbetween, hbetween, rfl, fun _ _ _ => rfl⟩

/-- A call on the core answers the same without the other cores. -/
theorem Store.Alone.observe (h : store.Alone core store') (hcall : call.Accepted Nonempty)
    (hcore : call.core = core) {answer : Reply InProgress × History Index Priority InProgress}
    {next : Store Index Priority InProgress} (hok : call.observe debug store = .ok answer next) :
    ∃ next', call.observe debug store' = .ok answer next' ∧ next.Alone core next' := by
  obtain ⟨tables, tables', hbetween, hbetween', htable, hsolo⟩ := h
  have hproper := hbetween.proper hcall hok
  have hsame : System.SameAt core (⟨tables, []⟩ : System Index Priority InProgress) ⟨tables', []⟩ :=
    ⟨htable, rfl⟩
  have hproper' : ¬ System.Misused tables' call := hsame.proper hcore hsolo hproper
  obtain ⟨hreply, hsame'⟩ := hsame.answer hcore
  obtain ⟨next₁, hrun, hnext⟩ := hbetween.observe hcall hproper
  obtain ⟨next', hrun', hnext'⟩ := hbetween'.observe hcall hproper'
  rw [hok] at hrun
  obtain ⟨rfl, rfl⟩ := EStateM.Result.ok.inj hrun
  refine ⟨next', ?_, _, _, hnext, hnext', hsame'.table, fun c hc p => ?_⟩
  · rw [hrun', hreply, hsame'.history]
  · have hothers : c ≠ call.core := hcore ▸ hc
    rw [System.answer_tables_of_ne hothers]
    exact hsolo c hc p

/-- A call on another core changes nothing for this one. -/
theorem Store.Alone.others (h : store.Alone core store') (hcall : call.Accepted Nonempty)
    (hcore : call.core ≠ core) {answer : Reply InProgress × History Index Priority InProgress}
    {next : Store Index Priority InProgress} (hok : call.observe debug store = .ok answer next) :
    next.Alone core store' := by
  obtain ⟨tables, tables', hbetween, hbetween', htable, hsolo⟩ := h
  obtain ⟨next₁, hrun, hnext⟩ := hbetween.observe hcall (hbetween.proper hcall hok)
  rw [hok] at hrun
  obtain ⟨-, rfl⟩ := EStateM.Result.ok.inj hrun
  refine ⟨_, tables', hnext, hbetween', ?_, hsolo⟩
  rw [System.answer_tables_of_ne (Ne.symm hcore)]
  exact htable

/-- The same locks are live on `core`, hold the same regions and wait in the same order. -/
structure Store.AlikeAt (core : Addr) (store store' : Store Index Priority InProgress) : Prop where
  parent : ∀ p, store.parent p = some core ↔ store'.parent p = some core
  region : ∀ p, store.parent p = some core → store.region p = store'.region p
  waiter : ∀ p, store.parent p = some core → store.waiter p = store'.waiter p
  queue : ∀ seq, store.Queue core seq ↔ store'.Queue core seq

theorem Store.Alone.alikeAt (h : store.Alone core store') : store.AlikeAt core store' := by
  obtain ⟨tables, tables', ⟨hmodels, hgood⟩, ⟨hmodels', hgood'⟩, htable, -⟩ := h
  have hparent : ∀ p, store.parent p = some core ↔ store'.parent p = some core := by
    intro p
    rw [hmodels.live_iff, hmodels'.live_iff, htable]
  refine ⟨hparent, fun p hp => ?_, fun p hp => ?_, fun seq => ?_⟩
  · obtain ⟨l, hl⟩ := hmodels.exists_lock hp
    have hl' : (tables' core).locks p = some l := by
      rw [← htable]
      exact hl
    rw [hmodels.region_eq hl, hmodels'.region_eq hl']
  · apply Option.ext
    intro w
    constructor
    · intro hw
      have hx := hmodels.mem_queue (fun c => (hgood.quiet c).toSound) hp hw
      exact hmodels'.waiter_iff.mpr ⟨core, htable ▸ hx⟩
    · intro hw
      have hx := hmodels'.mem_queue (fun c => (hgood'.quiet c).toSound) ((hparent p).mp hp) hw
      exact hmodels.waiter_iff.mpr ⟨core, htable ▸ hx⟩
  · rw [hmodels.queue_iff, hmodels'.queue_iff, htable]

/-- As long as no call is a misuse, the calls on one core get the replies and cause the events that
they would without the calls on other cores, and leave the core behind as they would. -/
theorem session_alone (debug : Bool) (core : Addr) (calls : List (Call Index Priority InProgress))
    (haccepted : ∀ call ∈ calls, call.Accepted Nonempty)
    (hok : ∀ answer ∈ (session (Call.observe debug) calls .init).1, ∃ a, answer = .ok a) :
    ((calls.zip (session (Call.observe debug) calls .init).1).filter
        fun x => decide (x.1.core = core)).map Prod.snd =
      (session (Call.observe debug) (calls.filter fun call => decide (call.core = core)) .init).1 ∧
    (session (Call.observe debug) calls .init).2.AlikeAt core
      (session (Call.observe debug) (calls.filter fun call => decide (call.core = core))
        .init).2 := by
  have hselected : ∀ call ∈ calls, decide (call.core = core) = true →
      ∀ (store store' : Store Index Priority InProgress) answer next, store.Alone core store' →
        call.observe debug store = .ok answer next →
        ∃ next', call.observe debug store' = .ok answer next' ∧ next.Alone core next' :=
    fun call hmem hcore _ _ _ _ h hrun =>
      h.observe (haccepted call hmem) (of_decide_eq_true hcore) hrun
  have hothers : ∀ call ∈ calls, decide (call.core = core) = false →
      ∀ (store store' : Store Index Priority InProgress) answer next, store.Alone core store' →
        call.observe debug store = .ok answer next → next.Alone core store' :=
    fun call hmem hcore _ _ _ _ h hrun =>
      h.others (haccepted call hmem) (of_decide_eq_false hcore) hrun
  obtain ⟨hanswers, halone⟩ := session_filter hselected hothers Store.Alone.init hok
  exact ⟨hanswers, halone.alikeAt⟩

end Calls

/-- A lock state serves the core at 9 while a reader waits at the core at 0, and later the core at
0. -/
theorem session_alone_guest : ∃ calls : List (Call ℕ ℕ ℕ),
    (∃ call ∈ calls, call.core ≠ slot 0) ∧
    ((calls.zip (session (Call.observe true) calls .init).1).filter
        fun x => decide (x.1.core = slot 0)).map Prod.snd =
      (session (Call.observe true) (calls.filter fun call => decide (call.core = slot 0)) .init).1 ∧
    (session (Call.observe true) calls .init).2.AlikeAt (slot 0)
      (session (Call.observe true) (calls.filter fun call => decide (call.core = slot 0))
        .init).2 := by
  set calls : List (Call ℕ ℕ ℕ) := [.lock true (slot 0) (slot 1) ⟨0, 10⟩ 0 100,
    .lock true (slot 9) (slot 2) ⟨0, 10⟩ 0 101, .lock false (slot 0) (slot 3) ⟨5, 15⟩ 0 102,
    .unlock (slot 9) (lockPtr true (slot 2)), .lock true (slot 0) (slot 2) ⟨7, 30⟩ 0 103,
    .unlock (slot 0) (lockPtr true (slot 1))] with hcalls
  have haccepted : ∀ call ∈ calls, call.Accepted Nonempty := by
    simp [hcalls, Call.Accepted, Nonempty]
  have hall : (session (Call.observe true) calls .init).1.all Except.isOk = true := by
    decide +kernel
  have hok : ∀ answer ∈ (session (Call.observe true) calls .init).1, ∃ a, answer = .ok a := by
    intro answer hmem
    have hanswer := List.all_eq_true.mp hall answer hmem
    cases answer with
    | ok a => exact ⟨a, rfl⟩
    | error fault => cases hanswer
  have hother : ∃ call ∈ calls, call.core ≠ slot 0 :=
    ⟨.lock true (slot 9) (slot 2) ⟨0, 10⟩ 0 101, by simp [hcalls], by decide⟩
  exact ⟨calls, hother, session_alone true (slot 0) calls haccepted hok⟩

end Interlock.Core
