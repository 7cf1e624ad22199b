import Interlock.Core.Calls
import Interlock.Core.Delivery

/-!
# What a client of a core relies on

A client calls the operations one after the other, and sees of each call the reply and the events.
`Store.After` is what it can assume of the memory in between, and `Store.After.call` says what a
call does.
-/

namespace Interlock.Core

open Memory RbTree

variable {Index Priority InProgress : Type} [LinearOrder Index] [LinearOrder Priority]

namespace System
variable {misuse : Prop} {accepts : LockPtr → Range Index → Prop}
  {σ σ' : System Index Priority InProgress} {core : Addr} {p : LockPtr}
  {x : LockPtr × Pending Index Priority InProgress}
  {visits : List (LockPtr × Pending Index Priority InProgress)}

/-! ## Earlier events -/

/-- The same system, after something else has happened. -/
def append (σ : System Index Priority InProgress)
    (log : List (Event Index Priority InProgress (Tables Index Priority InProgress))) :
    System Index Priority InProgress := ⟨σ.tables, σ.log ++ log⟩

variable (log : List (Event Index Priority InProgress (Tables Index Priority InProgress)))

theorem resumeAt_append (conflict : Option Index) :
    (σ.append log).resumeAt core x conflict = (σ.resumeAt core x conflict).append log := by
  cases conflict with
  | some i => rfl
  | none => rfl

theorem visit_append : (σ.append log).visit core p x = (σ.visit core p x).append log := by
  set σ₁ := σ.put core ((σ.tables core).truncate p x.2.range.start) with hσ₁
  set conflict := ((σ.tables core).truncate p x.2.range.start).firstConflict x.1 x.2.range
  have hresume : ((σ₁.note (.resuming x.1 σ₁.tables)).append log).resumeAt core x conflict =
      ((σ₁.note (.resuming x.1 σ₁.tables)).resumeAt core x conflict).append log :=
    resumeAt_append log conflict
  exact congrArg (fun σ' => σ'.note (.resumed x.1 σ'.tables)) hresume

theorem release_append :
    (σ.append log).release core p visits = (σ.release core p visits).append log := by
  induction visits generalizing σ with
  | nil => rfl
  | cons x visits ih =>
      calc (σ.append log).release core p (x :: visits)
          = ((σ.append log).visit core p x).release core p visits := rfl
        _ = ((σ.visit core p x).append log).release core p visits := by rw [visit_append]
        _ = (σ.release core p (x :: visits)).append log := ih

theorem unlock_append : (σ.append log).unlock core p = (σ.unlock core p).append log := by
  set σ₀ := σ.put core ((σ.tables core).dequeue p) with hσ₀
  have hrelease : (σ₀.append log).release core p ((σ₀.tables core).waitersOf p) =
      (σ₀.release core p ((σ₀.tables core).waitersOf p)).append log := release_append log
  exact congrArg (fun σ' => σ'.put core ((σ'.tables core).forget p)) hrelease

/-- A call does not depend on what has happened before. -/
theorem Step.append (step : Step misuse accepts σ σ') :
    Step misuse accepts (σ.append log) (σ'.append log) := by
  cases step with
  | lock isWrite core state priority inProgress hrange hfresh =>
      exact .lock isWrite core state priority inProgress hrange hfresh
  | tryLock isWrite core state hrange hfresh => exact .tryLock isWrite core state hrange hfresh
  | unlock core p hl =>
      have hstep : Step misuse accepts (σ.append log) _ := .unlock core p hl
      rwa [unlock_append] at hstep
  | inspect isWrite core state write hl => exact .inspect isWrite core state write hl
  | lockPanic hmisuse isWrite core state range priority inProgress hused =>
      exact .lockPanic hmisuse isWrite core state range priority inProgress hused
  | panic hmisuse call hmisused => exact .panic hmisuse call hmisused

end System

/-! ## The events of a call -/

/-- An event of an unlock call. -/
def Event.isRelease : Event Index Priority InProgress Unit → Bool
  | .complete .. | .resuming .. | .resumed .. => true
  | _ => false

/-- What a client sees of a call that returns: the reply, and the events, newest first. -/
inductive Call.Emits : Call Index Priority InProgress → Reply InProgress →
    History Index Priority InProgress → Prop where
  | lock (isWrite core state range priority inProgress complete) :
      Emits (.lock isWrite core state range priority inProgress) (.locked complete)
        [if complete then .lockComplete (lockPtr isWrite state)
          else .inProgress (lockPtr isWrite state) inProgress]
  | tryLock (isWrite core state range complete) :
      Emits (.tryLock isWrite core state range) (.locked complete) []
  | unlock (core p value) {events} (h : ∀ event ∈ events, event.isRelease = true) :
      Emits (.unlock core p) (.unlocked value) events
  | inspect (isWrite core state write lockState) :
      Emits (.inspect isWrite core state write) (.inspected lockState) []

namespace System
variable {accepts : LockPtr → Range Index → Prop}
  {σ σ' : System Index Priority InProgress} {core : Addr} {p : LockPtr}
  {x : LockPtr × Pending Index Priority InProgress}
  {visits : List (LockPtr × Pending Index Priority InProgress)}

theorem release_events (h : ∀ event ∈ σ.history, event.isRelease = true) :
    ∀ event ∈ (σ.release core p visits).history, event.isRelease = true := by
  induction visits generalizing σ with
  | nil => exact h
  | cons x visits ih =>
      apply ih
      intro event hevent
      cases hfirst : (σ.shrunk core p x core).firstConflict x.1 x.2.range with
      | some i =>
          rw [history, visit_log_some hfirst] at hevent
          rcases List.mem_cons.mp hevent with rfl | hevent
          · rfl
          · rcases List.mem_cons.mp hevent with rfl | hevent
            · rfl
            · exact h event hevent
      | none =>
          rw [history, visit_log_none hfirst] at hevent
          rcases List.mem_cons.mp hevent with rfl | hevent
          · rfl
          · rcases List.mem_cons.mp hevent with rfl | hevent
            · rfl
            · rcases List.mem_cons.mp hevent with rfl | hevent
              · rfl
              · exact h event hevent

theorem Step.emits (step : Step False accepts σ σ') (hlog : σ.log = [])
    {call : Call Index Priority InProgress} {reply : Reply InProgress}
    {events : History Index Priority InProgress}
    (hhistory : σ'.history = .returned call reply () :: events) : call.Emits reply events := by
  have hempty : σ.history = [] := by rw [history, hlog, List.map_nil]
  cases step with
  | @lock isWrite core state range priority inProgress hrange hfresh =>
      cases hfirst : (σ.tables core).firstConflict (lockPtr isWrite state) range with
      | some i =>
          have hcall : (.returned (.lock isWrite core state range priority inProgress)
              (.locked false) () :: .inProgress (lockPtr isWrite state) inProgress :: σ.history) =
              Event.returned call reply () :: events := by
            rw [← hhistory, System.lock, hfirst]
            rfl
          rw [hempty] at hcall
          cases hcall
          exact .lock _ _ _ _ _ _ false
      | none =>
          have hcall : (.returned (.lock isWrite core state range priority inProgress)
              (.locked true) () :: .lockComplete (lockPtr isWrite state) :: σ.history) =
              Event.returned call reply () :: events := by
            rw [← hhistory, System.lock, hfirst]
            rfl
          rw [hempty] at hcall
          cases hcall
          exact .lock _ _ _ _ _ _ true
  | @tryLock isWrite core state range hrange hfresh =>
      have hcall : (.returned (.tryLock isWrite core state range) (.locked
          ((σ.tables core).firstConflict (tryLockPtr isWrite state) range).isNone) () ::
            σ.history) = Event.returned call reply () :: events := hhistory
      rw [hempty] at hcall
      cases hcall
      exact .tryLock _ _ _ _ _
  | @unlock core p l hl =>
      have hcall : (.returned (.unlock core p) (.unlocked ((σ.tables core).waiting p)) () ::
          (σ.unlock core p).history) = Event.returned call reply () :: events := hhistory
      cases hcall
      refine .unlock _ _ _ (release_events ?_)
      intro event hevent
      have hevent : event ∈ σ.history := hevent
      rw [hempty] at hevent
      exact absurd hevent List.not_mem_nil
  | @inspect isWrite core state write l hl =>
      have hcall : (.returned (.inspect isWrite core state write) (.inspected
          (((σ.tables core).waiting (lockPtr isWrite state)).elim .complete .inProgress)) () ::
            σ.history) = Event.returned call reply () :: events := hhistory
      rw [hempty] at hcall
      cases hcall
      exact .inspect _ _ _ _ _
  | lockPanic hmisuse => exact hmisuse.elim
  | panic hmisuse => exact hmisuse.elim

/-- A call that panics completes no lock. -/
theorem Step.no_completions (step : Step True accepts σ σ') (hlog : σ.log = [])
    {call : Call Index Priority InProgress}
    {log : List (Event Index Priority InProgress (Tables Index Priority InProgress))}
    (hpanicked : σ'.log = .panicked call :: log) : completions log = [] := by
  cases step with
  | lock => cases hpanicked
  | tryLock => cases hpanicked
  | unlock => cases hpanicked
  | inspect => cases hpanicked
  | lockPanic hmisuse isWrite core state range priority inProgress hused =>
      rw [note_log, note_log, hlog] at hpanicked
      cases hpanicked
      cases hfirst : (σ.tables core).firstConflict (lockPtr isWrite state) range with
      | some i => rfl
      | none => rfl
  | panic hmisuse call' hmisused =>
      rw [note_log, hlog] at hpanicked
      cases hpanicked
      rfl

end System

omit [LinearOrder Index] [LinearOrder Priority] in
theorem completions_erase {Mem : Type} (log : List (Event Index Priority InProgress Mem)) :
    completions (log.map Event.erase) = completions log := by
  induction log with
  | nil => rfl
  | cons event log ih => cases event <;> simpa [completions, Event.erase] using ih

omit [LinearOrder Index] [LinearOrder Priority] in
/-- The locks that an unlock call completes have been pending, and are so no more. -/
theorem release_completions {events history : History Index Priority InProgress}
    (hrelease : ∀ event ∈ events, event.isRelease = true)
    (horderly : Logged (fun event history => event.Orderly history) (events ++ history)) :
    ((completions events).map Prod.fst).Nodup ∧
    (∀ x ∈ completions events, phase x.1 history = .pending x.2) ∧
    ∀ p, phase p (events ++ history) =
      if p ∈ (completions events).map Prod.fst then .complete else phase p history := by
  induction events with
  | nil => exact ⟨List.nodup_nil, by simp [completions], fun p => by simp [completions]⟩
  | cons event events ih =>
      obtain ⟨hevent, horderly⟩ := horderly
      obtain ⟨hnodup, hpending, hphase⟩ :=
        ih (fun e he => hrelease e (List.mem_cons_of_mem _ he)) horderly
      have hisRelease := hrelease event List.mem_cons_self
      cases hevent with
      | complete q value hq =>
          have hcompletions : completions (.complete q value () :: events) =
              (q, value) :: completions events := rfl
          have hq : phase q (events ++ history) = .pending value := hq
          have hnotin : q ∉ (completions events).map Prod.fst := by
            intro hmem
            rw [hphase, if_pos hmem] at hq
            cases hq
          rw [hphase, if_neg hnotin] at hq
          rw [hcompletions, List.map_cons]
          refine ⟨List.nodup_cons.mpr ⟨hnotin, hnodup⟩, ?_, fun p => ?_⟩
          · intro x hx
            rcases List.mem_cons.mp hx with rfl | hx
            · exact hq
            · exact hpending x hx
          · by_cases hqp : q = p
            · have hcomplete : phase p (.complete q value () :: (events ++ history)) = .complete :=
                if_pos hqp
              rw [if_pos (by simp [hqp])]
              exact hcomplete
            · have hsame : phase p (.complete q value () :: (events ++ history)) =
                  phase p (events ++ history) := if_neg hqp
              have hmem : p ∈ q :: (completions events).map Prod.fst ↔
                  p ∈ (completions events).map Prod.fst := by simp [Ne.symm hqp]
              rw [List.cons_append, hsame, hphase]
              simp only [hmem]
      | resuming | resumed => exact ⟨hnodup, hpending, hphase⟩
      | inProgress | lockComplete | lock | tryLock | unlock | inspectPending | inspectComplete =>
          cases hisRelease

/-! ## Calls -/

/-- What a lock call returns is of no importance for what it does. -/
theorem lockWith_map {debug : Bool} {core : Addr} {Output Output' : Type} (f : Output → Output')
    (conflict : CoreM Index Priority InProgress (Option Index))
    (borrow : Range Index → CoreM Index Priority InProgress Unit) (lock : LockPtr)
    (range : Range Index) (priority : Priority) (callback : LockCallback InProgress Output) :
    lockWith debug core conflict borrow lock range priority
      ⟨(f callback.inProgress.1, callback.inProgress.2), f callback.complete⟩ =
    f <$> lockWith debug core conflict borrow lock range priority callback := by
  simp only [lockWith, map_bind, bind_assoc, map_pure]
  refine bind_congr fun _ => bind_congr fun found => ?_
  cases found with
  | none => simp
  | some i => simp

/-- The memory after a run with these events. -/
def Store.After (store : Store Index Priority InProgress)
    (history : History Index Priority InProgress) : Prop :=
  ∃ σ : System Index Priority InProgress, System.Run False Nonempty σ ∧ Models σ.tables store ∧
    σ.history = history

namespace Store.After
variable {debug : Bool} {store : Store Index Priority InProgress}
  {history : History Index Priority InProgress}

theorem init : (Store.init : Store Index Priority InProgress).After [] :=
  ⟨.init, .init, ModelsWith.init, rfl⟩

theorem orderly (h : store.After history) :
    Logged (fun event history => event.Orderly history) history := by
  obtain ⟨σ, hrun, -, rfl⟩ := h
  exact (hrun.delivered admissible_of_nonempty).orderly

theorem ended (h : store.After history) : underway history = [] := by
  obtain ⟨σ, hrun, -, rfl⟩ := h
  exact (hrun.delivered admissible_of_nonempty).ended

theorem inPhase (h : store.After history) (p : LockPtr) : store.InPhase p (phase p history) := by
  obtain ⟨σ, hrun, hmodels, rfl⟩ := h
  exact hmodels.inPhase ((hrun.delivered admissible_of_nonempty).phases p)

end Store.After

/-- A call returns with the events that it should have, or it panics and leaves the memory as it is.
The ranges are not empty, unless there is a debug assertion to reject them. -/
theorem Store.After.call {debug : Bool} {store : Store Index Priority InProgress}
    {history : History Index Priority InProgress} (h : store.After history)
    (call : Call Index Priority InProgress) (haccepted : debug = false → call.Accepted Nonempty) :
    Runs (call.perform debug) ⟨store, []⟩ (fun reply w => call.Emits reply w.history ∧
      w.store.After (.returned call reply () :: (w.history ++ history))) ∨
    ∃ message, Panics (call.perform debug) ⟨store, []⟩ message fun w =>
      w.store = store ∧ completions w.log = [] := by
  by_cases hnonempty : call.Accepted Nonempty
  · obtain ⟨σ, hrun, hmodels, rfl⟩ := h
    have hgood := hrun.good admissible_of_nonempty
    set σ₀ : System Index Priority InProgress := ⟨σ.tables, []⟩ with hσ₀
    have hsimulates : Simulates ⟨store, []⟩ σ₀ := ⟨hmodels, List.Forall₂.nil⟩
    by_cases hmisused : System.Misused σ₀.tables call
    · right
      refine ⟨call.misuseMessage, (Call.panics admissible_of_nonempty True hsimulates hgood
        (fun _ => trivial) call hnonempty hmisused).mono ?_⟩
      rintro w ⟨hstore, hstep⟩
      obtain ⟨σ', hσ', hstep⟩ := hstep trivial
      refine ⟨hstore, ?_⟩
      obtain ⟨event, log, hevent, hsame, hlog⟩ := List.forall₂_cons_left_iff.mp hσ'.log
      cases hevent
      rw [SameLogWith.completions hsame]
      exact hstep.no_completions rfl hlog
    · left
      refine (Call.returns admissible_of_nonempty False hsimulates hgood (fun _ => trivial) call
        hnonempty hmisused).mono ?_
      rintro reply w ⟨σ', hσ', hstep⟩
      have hhistory : σ'.history = .returned call reply () :: w.history := hσ'.history_eq.symm
      refine ⟨hstep.emits rfl hhistory, σ'.append σ.log, hrun.step (hstep.append σ.log),
        hσ'.models, ?_⟩
      rw [System.history, System.append, List.map_append]
      exact congrArg (· ++ σ.history) hhistory
  · right
    cases debug with
    | true =>
        refine ⟨_, (Call.rejects hnonempty _).mono ?_⟩
        rintro w rfl
        exact ⟨rfl, rfl⟩
    | false => exact absurd (haccepted rfl) hnonempty

/-- A call that returns. -/
theorem Store.After.returned {debug : Bool} {store : Store Index Priority InProgress}
    {history : History Index Priority InProgress} (h : store.After history)
    {call : Call Index Priority InProgress} (haccepted : debug = false → call.Accepted Nonempty)
    {reply : Reply InProgress} {w : World Index Priority InProgress}
    (hrun : call.perform debug ⟨store, []⟩ = .ok reply w) :
    call.Emits reply w.history ∧
      w.store.After (.returned call reply () :: (w.history ++ history)) := by
  rcases h.call call haccepted with hruns | ⟨message, hpanics⟩
  · exact (runs_of_eq hrun).mp hruns
  · have hruns : Runs (call.perform debug) ⟨store, []⟩ fun _ _ => True := ⟨reply, w, hrun, trivial⟩
    exact absurd hpanics hruns.not_panics

/-- A call that panics. -/
theorem Store.After.panicked {debug : Bool} {store : Store Index Priority InProgress}
    {history : History Index Priority InProgress} (h : store.After history)
    {call : Call Index Priority InProgress} (haccepted : debug = false → call.Accepted Nonempty)
    {message : String} {w : World Index Priority InProgress}
    (hrun : call.perform debug ⟨store, []⟩ = .error (.panic message) w) :
    w.store = store ∧ completions w.log = [] := by
  rcases h.call call haccepted with hruns | ⟨message', w', hrun', hw⟩
  · have hpanics : Panics (call.perform debug) ⟨store, []⟩ message fun _ => True :=
      ⟨w, hrun, trivial⟩
    exact absurd hpanics hruns.not_panics
  · rw [hrun] at hrun'
    cases hrun'
    exact hw

end Interlock.Core
