import Interlock.Core.Effect

/-!
# What becomes of the values of waiting locks

A lock call that has to wait makes a value, its `InProgress`.  This file follows each value through
the history of the calls: it stays with its lock until it is handed over, once, either to
`UnlockCallback::complete` in the unlock call of another lock, or to the caller that cancels the
lock.
-/

namespace Interlock.Core

open Memory RbTree

variable {Index Priority InProgress : Type}

/-! ## Histories -/

/-- An event without the memory. -/
def Event.erase {Mem : Type} : Event Index Priority InProgress Mem →
    Event Index Priority InProgress Unit
  | .inProgress p value => .inProgress p value
  | .lockComplete p => .lockComplete p
  | .complete p value _ => .complete p value ()
  | .resuming p _ => .resuming p ()
  | .resumed p _ => .resumed p ()
  | .returned call reply _ => .returned call reply ()
  | .panicked call => .panicked call

/-- What has happened, newest first. -/
abbrev History (Index Priority InProgress : Type) := List (Event Index Priority InProgress Unit)

def World.history (world : World Index Priority InProgress) : History Index Priority InProgress :=
  world.log.map Event.erase

/-- What a lock state is to its owner. -/
inductive Phase (InProgress : Type) where
  | free
  | pending (inProgress : InProgress)
  | complete

def Phase.value : Phase InProgress → Option InProgress
  | .pending value => some value
  | .free | .complete => none

/-- The phase of `p` after an event. -/
def Event.next (p : LockPtr) (phase : Phase InProgress) :
    Event Index Priority InProgress Unit → Phase InProgress
  | .inProgress q value => if q = p then .pending value else phase
  | .lockComplete q => if q = p then .complete else phase
  | .complete q _ _ => if q = p then .complete else phase
  | .returned (.tryLock isWrite _ state _) (.locked true) _ =>
      if tryLockPtr isWrite state = p then .complete else phase
  | .returned (.unlock _ q) _ _ => if q = p then .free else phase
  | .returned (.inspect isWrite _ state write) (.inspected (.inProgress value)) _ =>
      if lockPtr isWrite state = p then .pending (write value) else phase
  | _ => phase

def phase (p : LockPtr) : History Index Priority InProgress → Phase InProgress
  | [] => .free
  | event :: history => event.next p (phase p history)

/-- The event is the end of a call. -/
def Event.isEnd : Event Index Priority InProgress Unit → Bool
  | .returned .. | .panicked _ => true
  | _ => false

/-- The events since the last call has returned. -/
def underway (history : History Index Priority InProgress) : History Index Priority InProgress :=
  history.takeWhile fun event => !event.isEnd

/-- What may happen while `p` is unlocked. -/
def Event.WhileUnlocking (p : LockPtr) : Event Index Priority InProgress Unit → Prop
  | .complete q _ _ => q ≠ p
  | .resuming _ _ | .resumed _ _ => True
  | _ => False

/-- What may happen after `history`. -/
inductive Event.Orderly (history : History Index Priority InProgress) :
    Event Index Priority InProgress Unit → Prop where
  | inProgress (p value) (hphase : phase p history = .free) : Orderly history (.inProgress p value)
  | lockComplete (p) (hphase : phase p history = .free) : Orderly history (.lockComplete p)
  | complete (p value) (hphase : phase p history = .pending value) :
      Orderly history (.complete p value ())
  | resuming (p) : Orderly history (.resuming p ())
  | resumed (p) : Orderly history (.resumed p ())
  /-- A lock call has called one of the two methods of its callback. -/
  | lock (isWrite core state range priority inProgress complete)
      (hevents : underway history = [if complete then .lockComplete (lockPtr isWrite state)
        else .inProgress (lockPtr isWrite state) inProgress]) :
      Orderly history
        (.returned (.lock isWrite core state range priority inProgress) (.locked complete) ())
  | tryLock (isWrite core state range complete) (hevents : underway history = [])
      (hphase : complete = true → phase (tryLockPtr isWrite state) history = .free) :
      Orderly history (.returned (.tryLock isWrite core state range) (.locked complete) ())
  /-- An unlock call returns the value of a lock that has waited, and has completed other locks. -/
  | unlock (core p) (hevents : ∀ event ∈ underway history, event.WhileUnlocking p)
      (hphase : phase p history ≠ .free) :
      Orderly history (.returned (.unlock core p) (.unlocked (phase p history).value) ())
  | inspectPending (isWrite core state write value) (hevents : underway history = [])
      (hphase : phase (lockPtr isWrite state) history = .pending value) :
      Orderly history
        (.returned (.inspect isWrite core state write) (.inspected (.inProgress value)) ())
  | inspectComplete (isWrite core state write) (hevents : underway history = [])
      (hphase : phase (lockPtr isWrite state) history = .complete) :
      Orderly history (.returned (.inspect isWrite core state write) (.inspected .complete) ())

/-- The values that lock calls have made for `p`, newest first, as they are after the writes of
their owner. -/
def produced (p : LockPtr) : History Index Priority InProgress → List InProgress
  | [] => []
  | .inProgress q value :: history =>
      if q = p then value :: produced p history else produced p history
  | .returned (.inspect isWrite _ state write) (.inspected (.inProgress _)) _ :: history =>
      if lockPtr isWrite state = p then (produced p history).modifyHead write
      else produced p history
  | _ :: history => produced p history

/-- The values of `p` that have been handed over, newest first. -/
def delivered (p : LockPtr) : History Index Priority InProgress → List InProgress
  | [] => []
  | .complete q value _ :: history =>
      if q = p then value :: delivered p history else delivered p history
  | .returned (.unlock _ q) (.unlocked (some value)) _ :: history =>
      if q = p then value :: delivered p history else delivered p history
  | _ :: history => delivered p history

/-- What the memory says of the phase of `p`. -/
def Store.InPhase (store : Store Index Priority InProgress) (p : LockPtr) : Phase InProgress → Prop
  | .free => store.parent p = none
  | .pending value => ∃ w, store.waiter p = some w ∧ w.inProgress = value
  | .complete => store.parent p ≠ none ∧ store.waiter p = none

/-- In an orderly history each value has been handed over once, or is still with its lock. -/
theorem produced_eq {history : History Index Priority InProgress} (p : LockPtr)
    (h : Logged (fun event history => event.Orderly history) history) :
    produced p history = (phase p history).value.toList ++ delivered p history := by
  induction history with
  | nil => rfl
  | cons event history ih =>
      obtain ⟨hevent, hhistory⟩ := h
      have ih := ih hhistory
      cases hevent with
      | inProgress q value hphase =>
          by_cases hqp : q = p
          · subst hqp
            rw [hphase] at ih
            simp [produced, phase, Event.next, delivered, Phase.value, ih]
          · simp [produced, phase, Event.next, delivered, hqp, ih]
      | lockComplete q hphase =>
          by_cases hqp : q = p
          · subst hqp
            rw [hphase] at ih
            simp [produced, phase, Event.next, delivered, Phase.value, ih]
          · simp [produced, phase, Event.next, delivered, hqp, ih]
      | complete q value hphase =>
          by_cases hqp : q = p
          · subst hqp
            rw [hphase] at ih
            simp [produced, phase, Event.next, delivered, Phase.value, ih]
          · simp [produced, phase, Event.next, delivered, hqp, ih]
      | resuming | resumed | lock => exact ih
      | tryLock isWrite core state range complete hevents hphase =>
          cases complete with
          | false => exact ih
          | true =>
              by_cases hqp : tryLockPtr isWrite state = p
              · subst hqp
                rw [hphase rfl] at ih
                simp [produced, phase, Event.next, delivered, Phase.value, ih]
              · simp [produced, phase, Event.next, delivered, hqp, ih]
      | unlock core q hevents hphase =>
          by_cases hqp : q = p
          · subst hqp
            cases hq : phase q history with
            | free => exact absurd hq hphase
            | pending value =>
                rw [hq] at ih
                simp [produced, phase, Event.next, delivered, Phase.value, ih]
            | complete =>
                rw [hq] at ih
                simp [produced, phase, Event.next, delivered, Phase.value, ih]
          · cases hq : (phase q history).value <;>
              simp [produced, phase, Event.next, delivered, hqp, ih]
      | inspectPending isWrite core state write value hevents hphase =>
          by_cases hqp : lockPtr isWrite state = p
          · subst hqp
            rw [hphase] at ih
            simp [produced, phase, Event.next, delivered, Phase.value, ih]
          · simp [produced, phase, Event.next, delivered, hqp, ih]
      | inspectComplete => exact ih

/-! ## Tables -/

variable [LinearOrder Index] [LinearOrder Priority]

/-- A lock call leaves the other waiters where they are. -/
theorem Table.mem_lock_queue {s : Table Index Priority InProgress} {p q : LockPtr}
    {range : Range Index} {priority : Priority} {inProgress : InProgress}
    {w : Pending Index Priority InProgress} (hqp : q ≠ p) :
    (q, w) ∈ (s.lock p range priority inProgress).queue ↔ (q, w) ∈ s.queue := by
  unfold Table.lock Table.lockAt
  split
  · refine insertSeq_perm.mem_iff.trans ?_
    rw [List.mem_cons, or_iff_right]
    · rfl
    · exact fun heq => hqp (congrArg Prod.fst heq)
  · rfl

/-- `p` waits with this value. -/
def Tables.Carries (tables : Tables Index Priority InProgress) (p : LockPtr) (value : InProgress) :
    Prop :=
  ∃ c w, (p, w) ∈ (tables c).queue ∧ w.inProgress = value

def Tables.InPhase (tables : Tables Index Priority InProgress) (p : LockPtr) :
    Phase InProgress → Prop
  | .free => ¬ InUse tables p
  | .pending value => tables.Carries p value
  | .complete => InUse tables p ∧ ∀ value, ¬ tables.Carries p value

section Tables
variable {tables tables' : Tables Index Priority InProgress} {p : LockPtr}
  {ph : Phase InProgress} {value : InProgress}

omit [LinearOrder Index] [LinearOrder Priority] in
theorem Tables.InPhase.congr (h : tables.InPhase p ph) (hused : InUse tables' p ↔ InUse tables p)
    (hcarries : ∀ value, tables'.Carries p value ↔ tables.Carries p value) :
    tables'.InPhase p ph := by
  cases ph with
  | free => exact mt hused.mp h
  | pending value => exact (hcarries value).mpr h
  | complete => exact ⟨hused.mpr h.1, fun value => mt (hcarries value).mp (h.2 value)⟩

omit [LinearOrder Index] [LinearOrder Priority] in
/-- A core does something to other locks. -/
theorem Tables.InPhase.update (core : Addr) {s' : Table Index Priority InProgress}
    (h : tables.InPhase p ph) (hlocks : s'.locks p = (tables core).locks p)
    (hqueue : ∀ w, (p, w) ∈ s'.queue ↔ (p, w) ∈ (tables core).queue) :
    Tables.InPhase (Function.update tables core s') p ph := by
  refine h.congr ?_ fun value => ?_
  · refine exists_congr fun c => exists_congr fun l => ?_
    by_cases hc : c = core
    · rw [hc, Function.update_self, hlocks]
    · rw [Function.update_of_ne hc]
  · refine exists_congr fun c => exists_congr fun w => and_congr_left fun _ => ?_
    by_cases hc : c = core
    · rw [hc, Function.update_self, hqueue]
    · rw [Function.update_of_ne hc]

/-- A waiter is pending. -/
theorem Tables.InPhase.eq_pending (h : tables.InPhase p ph)
    (hsound : ∀ c, (tables c).Sound True)
    (hapart : ∀ c c' p l l', (tables c).locks p = some l → (tables c').locks p = some l' → c = c')
    {core : Addr} {x : LockPtr × Pending Index Priority InProgress} (hx : x ∈ (tables core).queue)
    (hxp : x.1 = p) : ph = .pending x.2.inProgress := by
  subst hxp
  obtain ⟨l, hl, -⟩ := (hsound core).exists_lock hx
  cases ph with
  | free => exact absurd ⟨core, l, hl⟩ h
  | complete => exact absurd ⟨core, x.2, hx, rfl⟩ (h.2 x.2.inProgress)
  | pending value =>
      obtain ⟨c, w, hw, rfl⟩ := h
      obtain ⟨l', hl', -⟩ := (hsound c).exists_lock hw
      obtain rfl := hapart c core x.1 l' l hl' hl
      have heq := List.inj_on_of_nodup_map (hsound c).queue_nodup hw hx rfl
      rw [← heq]

/-- The table tells the phase of a live lock. -/
theorem Tables.InPhase.eq_waiting (h : tables.InPhase p ph)
    (hsound : ∀ c, (tables c).Sound True)
    (hapart : ∀ c c' p l l', (tables c).locks p = some l → (tables c').locks p = some l' → c = c')
    {core : Addr} {l : Lock Index} (hl : (tables core).locks p = some l) :
    ph = ((tables core).waiting p).elim .complete .pending := by
  by_cases hp : p ∈ (tables core).queue.map Prod.fst
  · obtain ⟨x, hx, hxp⟩ := List.mem_map.mp hp
    rw [h.eq_pending hsound hapart hx hxp, ← hxp, (hsound core).waiting_eq_some hx,
      Option.elim_some]
  · rw [Table.waiting_eq_none hp, Option.elim_none]
    cases ph with
    | free => exact absurd ⟨core, l, hl⟩ h
    | complete => rfl
    | pending value =>
        obtain ⟨c, w, hw, -⟩ := h
        obtain ⟨l', hl', -⟩ := (hsound c).exists_lock hw
        obtain rfl := hapart c core p l' l hl' hl
        exact absurd (List.mem_map.mpr ⟨_, hw, rfl⟩) hp

end Tables

namespace System
variable {strict : Prop} {accepts : LockPtr → Range Index → Prop}
  {σ σ' : System Index Priority InProgress} {core : Addr} {p q : LockPtr}
  {value : Option InProgress}
  {x : LockPtr × Pending Index Priority InProgress}
  {visits : List (LockPtr × Pending Index Priority InProgress)}

def history (σ : System Index Priority InProgress) : History Index Priority InProgress :=
  σ.log.map Event.erase

/-- The history is orderly, and the tables are where it has led to. -/
structure Delivered (σ : System Index Priority InProgress) : Prop where
  orderly : Logged (fun event history => event.Orderly history) σ.history
  ended : underway σ.history = []
  phases : ∀ p, σ.tables.InPhase p (phase p σ.history)

/-- The same while `p` is unlocked, which was in a phase with this value. -/
structure Delivering (p : LockPtr) (value : Option InProgress)
    (σ : System Index Priority InProgress) :
    Prop where
  orderly : Logged (fun event history => event.Orderly history) σ.history
  events : ∀ event ∈ underway σ.history, event.WhileUnlocking p
  own : phase p σ.history ≠ .free ∧ (phase p σ.history).value = value
  phases : ∀ q, q ≠ p → σ.tables.InPhase q (phase q σ.history)

/-- Who waits after a round of the loop. -/
theorem Releasing.carries_visit (hrel : Releasing True core p (x :: visits) σ.tables)
    (q : LockPtr) (value : InProgress) : (σ.visit core p x).tables.Carries q value ↔
      (q ≠ x.1 ∧ σ.tables.Carries q value) ∨
      (q = x.1 ∧ ((σ.shrunk core p x core).firstConflict x.1 x.2.range).isSome ∧
        x.2.inProgress = value) := by
  have hxq : x ∈ (σ.tables core).queue := hrel.table.mem_queue
  have hxs : x ∈ (σ.shrunk core p x core).queue := by rwa [shrunk_queue]
  have hsound := hrel.shrunk_sound core
  obtain ⟨l, hl, -⟩ := hsound.exists_lock hxs
  obtain ⟨l₀, hl₀, -⟩ := (hrel.sound core).exists_lock hxq
  obtain ⟨r, hr, -, -, hentry⟩ := hsound.resume_spec hxs hl
  have hqueue : ∀ c, c ≠ core → ((σ.visit core p x).tables c).queue = (σ.tables c).queue := by
    intro c hc
    rw [visit_tables, Function.update_of_ne hc]
  have hcore : ((σ.visit core p x).tables core).queue =
      ((σ.shrunk core p x core).resume x).queue := by
    rw [visit_tables_shrunk, Function.update_self]
  by_cases hqx : q = x.1
  · subst hqx
    simp only [ne_eq, not_true_eq_false, false_and, false_or, true_and]
    rw [hr]
    constructor
    · rintro ⟨c, w, hw, rfl⟩
      by_cases hc : c = core
      · rw [hc, hcore, hentry] at hw
        obtain ⟨i, rfl, rfl⟩ := Option.map_eq_some_iff.mp hw
        exact ⟨rfl, rfl⟩
      · rw [hqueue c hc] at hw
        obtain ⟨l', hl', -⟩ := (hrel.sound c).exists_lock hw
        exact absurd (hrel.apart c core x.1 l' l₀ hl' hl₀) hc
    · rintro ⟨hsome, rfl⟩
      obtain ⟨i, rfl⟩ := Option.isSome_iff_exists.mp hsome
      refine ⟨core, (Table.moveTo x i).2, ?_, rfl⟩
      rw [hcore, hentry]
      rfl
  · simp only [ne_eq, hqx, not_false_eq_true, true_and, false_and, or_false]
    refine exists_congr fun c => exists_congr fun w => and_congr_left fun _ => ?_
    by_cases hc : c = core
    · rw [hc, hcore, Table.mem_resume_queue (y := (q, w)) hqx, shrunk_queue]
    · rw [hqueue c hc]

theorem inUse_visit (q : LockPtr) : InUse (σ.visit core p x).tables q ↔ InUse σ.tables q := by
  refine exists_congr fun c => ?_
  have hrequest : (((σ.visit core p x).tables c).requestOf q).isSome =
      ((σ.tables c).requestOf q).isSome := congrArg Option.isSome (requestOf_visit c q)
  rw [Table.requestOf, Table.requestOf, Option.isSome_map, Option.isSome_map] at hrequest
  rw [← Option.isSome_iff_exists, ← Option.isSome_iff_exists, hrequest]

theorem Releasing.inPhase_visit (hrel : Releasing True core p (x :: visits) σ.tables)
    {ph : Phase InProgress} (hqx : q ≠ x.1) (h : σ.tables.InPhase q ph) :
    (σ.visit core p x).tables.InPhase q ph := by
  refine h.congr (inUse_visit q) fun value => ?_
  rw [hrel.carries_visit]
  simp [hqx]

theorem Delivering.visit (h : Delivering p value σ)
    (hrel : Releasing True core p (x :: visits) σ.tables) :
    Delivering p value (σ.visit core p x) := by
  have hxq : x ∈ (σ.tables core).queue := hrel.table.mem_queue
  have hxp : x.1 ≠ p := by
    intro hxp
    apply hrel.table.not_waiting
    rw [← hxp]
    exact List.mem_map_of_mem hxq
  have hphase := (h.phases x.1 hxp).eq_pending hrel.sound hrel.apart hxq rfl
  obtain ⟨l, hl, -⟩ := (hrel.sound core).exists_lock hxq
  cases hfirst : (σ.shrunk core p x core).firstConflict x.1 x.2.range with
  | some i =>
      have hhistory : (σ.visit core p x).history = .resumed x.1 () :: .resuming
          x.1 () :: σ.history := by
        rw [history, visit_log_some hfirst]
        rfl
      have hphases : ∀ q, phase q (σ.visit core p x).history = phase q σ.history := by
        intro q
        rw [hhistory]
        rfl
      refine ⟨?_, ?_, ?_, fun q hqp => ?_⟩
      · rw [hhistory]
        exact ⟨.resumed _, .resuming _, h.orderly⟩
      · rw [hhistory]
        intro event hevent
        rcases List.mem_cons.mp hevent with rfl | hevent
        · trivial
        · rcases List.mem_cons.mp hevent with rfl | hevent
          · trivial
          · exact h.events event hevent
      · rw [hphases p]
        exact h.own
      · rw [hphases q]
        by_cases hqx : q = x.1
        · rw [hqx, hphase]
          exact (hrel.carries_visit _ _).mpr (Or.inr ⟨rfl, by rw [hfirst]; rfl, rfl⟩)
        · exact hrel.inPhase_visit hqx (h.phases q hqp)
  | none =>
      have hhistory : (σ.visit core p x).history = .resumed x.1 () ::
          .complete x.1 x.2.inProgress () :: .resuming x.1 () :: σ.history := by
        rw [history, visit_log_none hfirst]
        rfl
      have hphases : ∀ q, q ≠ x.1 → phase q (σ.visit core p x).history = phase q σ.history := by
        intro q hqx
        rw [hhistory]
        exact if_neg (Ne.symm hqx)
      refine ⟨?_, ?_, ?_, fun q hqp => ?_⟩
      · rw [hhistory]
        exact ⟨.resumed _, .complete _ _ hphase, .resuming _, h.orderly⟩
      · rw [hhistory]
        intro event hevent
        rcases List.mem_cons.mp hevent with rfl | hevent
        · trivial
        · rcases List.mem_cons.mp hevent with rfl | hevent
          · exact hxp
          · rcases List.mem_cons.mp hevent with rfl | hevent
            · trivial
            · exact h.events event hevent
      · rw [hphases p (Ne.symm hxp)]
        exact h.own
      · by_cases hqx : q = x.1
        · have hcomplete : phase q (σ.visit core p x).history = .complete := by
            rw [hhistory]
            exact if_pos hqx.symm
          rw [hcomplete, hqx]
          refine ⟨(inUse_visit x.1).mpr ⟨core, l, hl⟩, fun v hv => ?_⟩
          rcases (hrel.carries_visit _ _).mp hv with ⟨hne, -⟩ | ⟨-, hsome, -⟩
          · exact hne rfl
          · rw [hfirst] at hsome
            cases hsome
        · rw [hphases q hqx]
          exact hrel.inPhase_visit hqx (h.phases q hqp)

/-- An unlock call begins. -/
theorem Delivered.unlocking (h : Delivered σ) (hgood : Good True σ.tables) {l : Lock Index}
    (hl : (σ.tables core).locks p = some l) :
    Delivering p ((σ.tables core).waiting p) (σ.put core ((σ.tables core).dequeue p)) := by
  have hsound := fun c => (hgood.quiet c).toSound
  have hown := (h.phases p).eq_waiting hsound hgood.apart hl
  refine ⟨h.orderly, ?_, ?_, fun q hqp => ?_⟩
  · intro event hevent
    have hempty : underway σ.history = [] := h.ended
    rw [show (σ.put core ((σ.tables core).dequeue p)).history = σ.history from rfl,
      hempty] at hevent
    exact absurd hevent List.not_mem_nil
  · show phase p σ.history ≠ .free ∧ (phase p σ.history).value = _
    rw [hown]
    cases (σ.tables core).waiting p with
    | none => exact ⟨by simp, rfl⟩
    | some value => exact ⟨by simp, rfl⟩
  · refine (h.phases q).update core rfl fun w => ?_
    simp [Table.dequeue, removeSeq, hqp]

/-- An unlock call returns. -/
theorem Delivering.unlocked (h : Delivering p value σ) (hrel : Releasing True core p [] σ.tables) :
    Delivered ((σ.put core ((σ.tables core).forget p)).returned (.unlock core p)
      (.unlocked value)) := by
  have hhistory : ((σ.put core ((σ.tables core).forget p)).returned (.unlock core p)
      (.unlocked value)).history =
        .returned (.unlock core p) (.unlocked value) () :: σ.history := rfl
  have hgood := hrel.forget
  refine ⟨?_, rfl, fun q => ?_⟩
  · rw [hhistory, ← h.own.2]
    exact ⟨.unlock core p h.events h.own.1, h.orderly⟩
  · rw [hhistory]
    by_cases hqp : q = p
    · have hfree : phase q (.returned (.unlock core p) (.unlocked value) () :: σ.history) = .free :=
        if_pos hqp.symm
      rw [hfree, hqp]
      rintro ⟨c, l, hl⟩
      obtain ⟨lp, hlp, -⟩ := hrel.table.region
      by_cases hc : c = core
      · rw [hc, returned_tables, put_tables, Function.update_self, Table.forget_locks,
          if_pos rfl] at hl
        cases hl
      · rw [returned_tables, put_tables, Function.update_of_ne hc] at hl
        exact hc (hrel.apart c core p l lp hl hlp)
    · have hsame : phase q (.returned (.unlock core p) (.unlocked value) () :: σ.history) =
          phase q σ.history := if_neg (Ne.symm hqp)
      rw [hsame]
      refine (h.phases q hqp).update core ?_ fun w => Iff.rfl
      rw [Table.forget_locks, if_neg hqp]

/-- A lock that is not in use is free. -/
theorem Delivered.phase_eq_free (h : Delivered σ) (hsound : ∀ c, (σ.tables c).Sound True)
    (hq : ¬ InUse σ.tables q) : phase q σ.history = .free := by
  have hphase := h.phases q
  cases hph : phase q σ.history with
  | free => rfl
  | pending value =>
      rw [hph] at hphase
      obtain ⟨c, w, hw, -⟩ := hphase
      obtain ⟨l, hl, -⟩ := (hsound c).exists_lock hw
      exact absurd ⟨c, l, hl⟩ hq
  | complete =>
      rw [hph] at hphase
      exact absurd hphase.1 hq

/-- A new lock that holds all of its range. -/
theorem Delivered.add (hgood : Good True σ.tables) (core : Addr)
    {s' : Table Index Priority InProgress}
    (hfresh : ¬ InUse σ.tables p) (hqueue : s'.queue = (σ.tables core).queue)
    (hp : ∃ l, s'.locks p = some l) :
    Tables.InPhase (Function.update σ.tables core s') p .complete := by
  obtain ⟨l, hl⟩ := hp
  refine ⟨⟨core, l, by rw [Function.update_self, hl]⟩, ?_⟩
  rintro value ⟨c, w, hw, -⟩
  have hnone := hgood.not_queued hfresh c
  by_cases hc : c = core
  · rw [hc, Function.update_self, hqueue, ← hc] at hw
    exact hnone (List.mem_map_of_mem hw)
  · rw [Function.update_of_ne hc] at hw
    exact hnone (List.mem_map_of_mem hw)

theorem Delivered.lock (h : Delivered σ) (hgood : Good True σ.tables) (isWrite : Bool)
    (core state : Addr) (range : Range Index) (priority : Priority) (inProgress : InProgress)
    (hfresh : ¬ InUse σ.tables (lockPtr isWrite state)) :
    Delivered ((σ.lock core (lockPtr isWrite state) range priority inProgress).returned
      (.lock isWrite core state range priority inProgress)
      (.locked ((σ.tables core).firstConflict (lockPtr isWrite state) range).isNone)) := by
  have hsound := fun c => (hgood.quiet c).toSound
  have hfree := h.phase_eq_free hsound hfresh
  set p := lockPtr isWrite state with hp
  have hothers : ∀ q, q ≠ p → Tables.InPhase
      (σ.lock core p range priority inProgress).tables q (phase q σ.history) := fun q hqp =>
    (h.phases q).update core (Table.lock_locks_of_ne hqp _ _) fun w => Table.mem_lock_queue hqp
  cases hfirst : (σ.tables core).firstConflict p range with
  | some i =>
      have hhistory : ((σ.lock core p range priority inProgress).returned
          (.lock isWrite core state range priority inProgress) (.locked false)).history =
          .returned (.lock isWrite core state range priority inProgress) (.locked false) () ::
            .inProgress p inProgress :: σ.history := by
        simp only [System.lock, hfirst]
        rfl
      rw [Option.isNone_some]
      refine ⟨?_, by rw [hhistory]; rfl, fun q => ?_⟩
      · rw [hhistory]
        refine ⟨.lock _ _ _ _ _ _ false ?_, .inProgress _ _ hfree, h.orderly⟩
        exact congrArg (List.cons _) h.ended
      · rw [hhistory]
        by_cases hqp : q = p
        · have hpending : phase q (.returned (.lock isWrite core state range priority inProgress)
              (.locked false) () :: .inProgress p inProgress :: σ.history) = .pending inProgress :=
            if_pos hqp.symm
          rw [hpending, hqp]
          refine ⟨core, ⟨⟨i, range.stop⟩, priority, p, inProgress⟩, ?_, rfl⟩
          simp only [returned_tables, System.lock, System.lockAt, put_tables, Function.update_self,
            hfirst, Table.lockAt]
          exact insertSeq_perm.mem_iff.mpr List.mem_cons_self
        · have hsame : phase q (.returned (.lock isWrite core state range priority inProgress)
              (.locked false) () :: .inProgress p inProgress :: σ.history) = phase q σ.history :=
            if_neg (Ne.symm hqp)
          rw [hsame]
          exact hothers q hqp
  | none =>
      have hhistory : ((σ.lock core p range priority inProgress).returned
          (.lock isWrite core state range priority inProgress) (.locked true)).history =
          .returned (.lock isWrite core state range priority inProgress) (.locked true) () ::
            .lockComplete p :: σ.history := by
        simp only [System.lock, hfirst]
        rfl
      rw [Option.isNone_none]
      refine ⟨?_, by rw [hhistory]; rfl, fun q => ?_⟩
      · rw [hhistory]
        refine ⟨.lock _ _ _ _ _ _ true ?_, .lockComplete _ hfree, h.orderly⟩
        exact congrArg (List.cons _) h.ended
      · rw [hhistory]
        by_cases hqp : q = p
        · have hcomplete : phase q (.returned (.lock isWrite core state range priority inProgress)
              (.locked true) () :: .lockComplete p :: σ.history) = .complete := if_pos hqp.symm
          rw [hcomplete, hqp]
          refine Delivered.add hgood core hfresh ?_ ⟨⟨range.start, range.stop, some range.stop⟩, ?_⟩
          · rw [hfirst]
            rfl
          · rw [hfirst]
            exact Function.update_self _ _ _
        · have hsame : phase q (.returned (.lock isWrite core state range priority inProgress)
              (.locked true) () :: .lockComplete p :: σ.history) = phase q σ.history :=
            if_neg (Ne.symm hqp)
          rw [hsame]
          exact hothers q hqp

theorem Delivered.tryLock (h : Delivered σ) (hgood : Good True σ.tables) (isWrite : Bool)
    (core state : Addr) (range : Range Index)
    (hfresh : (σ.tables core).firstConflict (tryLockPtr isWrite state) range = none →
      ¬ InUse σ.tables (tryLockPtr isWrite state)) :
    Delivered ((σ.tryLock core (tryLockPtr isWrite state) range).returned
      (.tryLock isWrite core state range)
      (.locked ((σ.tables core).firstConflict (tryLockPtr isWrite state) range).isNone)) := by
  have hsound := fun c => (hgood.quiet c).toSound
  set p := tryLockPtr isWrite state with hp
  cases hfirst : (σ.tables core).firstConflict p range with
  | some i =>
      have hself : (σ.tables core).tryLock p range = σ.tables core := by rw [Table.tryLock, hfirst]
      refine ⟨⟨.tryLock _ _ _ _ false h.ended (fun hfalse => by cases hfalse), h.orderly⟩, rfl,
        fun q => ?_⟩
      refine (h.phases q).update core ?_ fun w => ?_
      · rw [hself]
      · rw [hself]
  | none =>
      have hunused := hfresh hfirst
      have hfree := h.phase_eq_free hsound hunused
      have hadd : (σ.tables core).tryLock p range =
          (σ.tables core).add p range (some range.stop) := by
        rw [Table.tryLock, hfirst]
      refine ⟨⟨.tryLock _ _ _ _ true h.ended (fun _ => hfree), h.orderly⟩, rfl, fun q => ?_⟩
      by_cases hqp : q = p
      · have hcomplete : phase q ((σ.tryLock core p range).returned
            (.tryLock isWrite core state range) (.locked true)).history = .complete :=
          if_pos hqp.symm
        rw [Option.isNone_none, hcomplete, hqp]
        refine Delivered.add hgood core hunused ?_ ⟨⟨range.start, range.stop, some range.stop⟩, ?_⟩
        · rw [hadd]
          rfl
        · rw [hadd]
          exact Function.update_self _ _ _
      · have hsame : phase q ((σ.tryLock core p range).returned
            (.tryLock isWrite core state range) (.locked true)).history = phase q σ.history :=
          if_neg (Ne.symm hqp)
        rw [Option.isNone_none, hsame]
        refine (h.phases q).update core (Table.tryLock_locks_of_ne hqp) fun w => ?_
        rw [hadd]
        rfl

theorem Delivered.inspect (h : Delivered σ) (hgood : Good True σ.tables) (isWrite : Bool)
    (core state : Addr) (write : InProgress → InProgress) {l : Lock Index}
    (hl : (σ.tables core).locks (lockPtr isWrite state) = some l) :
    Delivered ((σ.write core (lockPtr isWrite state) write).returned
      (.inspect isWrite core state write)
      (.inspected (((σ.tables core).waiting (lockPtr isWrite state)).elim .complete
        .inProgress))) := by
  have hsound := fun c => (hgood.quiet c).toSound
  set p := lockPtr isWrite state with hp
  have hphase := (h.phases p).eq_waiting hsound hgood.apart hl
  have hlocks : ((σ.tables core).write p write).locks = (σ.tables core).locks := rfl
  have hothers : ∀ q, q ≠ p → (σ.write core p write).tables.InPhase q (phase q σ.history) := by
    intro q hqp
    refine (h.phases q).update core rfl fun w => ?_
    constructor
    · intro hw
      obtain ⟨y, hy, heq⟩ := List.mem_map.mp hw
      have hyq : y.1 = q := by rw [← Table.writeEntry_fst p y write, heq]
      have hyp : y.1 ≠ p := fun hyp => hqp (hyq.symm.trans hyp)
      rw [Table.writeEntry, if_neg hyp] at heq
      rwa [← heq]
    · intro hw
      refine List.mem_map.mpr ⟨(q, w), hw, ?_⟩
      rw [Table.writeEntry, if_neg hqp]
  by_cases hmem : p ∈ (σ.tables core).queue.map Prod.fst
  · obtain ⟨x, hx, hxp⟩ := List.mem_map.mp hmem
    have hwaiting : (σ.tables core).waiting p = some x.2.inProgress := by
      rw [← hxp]
      exact (hgood.quiet core).waiting_eq_some hx
    rw [hwaiting] at hphase ⊢
    refine ⟨⟨.inspectPending _ _ _ _ _ h.ended hphase, h.orderly⟩, rfl, fun q => ?_⟩
    by_cases hqp : q = p
    · have hpending : phase q ((σ.write core p write).returned (.inspect isWrite core state write)
          (.inspected (.inProgress x.2.inProgress))).history = .pending (write x.2.inProgress) :=
        if_pos hqp.symm
      rw [Option.elim_some, hpending, hqp]
      refine ⟨core, { x.2 with inProgress := write x.2.inProgress }, ?_, rfl⟩
      rw [returned_tables, System.write, put_tables, Function.update_self]
      refine List.mem_map.mpr ⟨x, hx, ?_⟩
      rw [Table.writeEntry, if_pos hxp, hxp]
    · have hsame : phase q ((σ.write core p write).returned (.inspect isWrite core state write)
          (.inspected (.inProgress x.2.inProgress))).history = phase q σ.history :=
        if_neg (Ne.symm hqp)
      rw [Option.elim_some, hsame]
      exact hothers q hqp
  · rw [Table.waiting_eq_none hmem] at hphase ⊢
    have hself : (σ.tables core).write p write = σ.tables core := Table.write_self hmem
    refine ⟨⟨.inspectComplete _ _ _ _ h.ended hphase, h.orderly⟩, rfl, fun q => ?_⟩
    refine (h.phases q).update core rfl fun w => ?_
    rw [hself]

/-- Any call keeps the history orderly, given that unlock calls do. -/
theorem Step.delivered (hgood : Good True σ.tables) (h : Delivered σ)
    (step : Step False accepts σ σ')
    (hunlock : ∀ core p l, (σ.tables core).locks p = some l →
      Delivered ((σ.unlock core p).returned (.unlock core p)
        (.unlocked ((σ.tables core).waiting p)))) : Delivered σ' := by
  cases step with
  | lock isWrite core state priority inProgress hrange hfresh =>
      exact h.lock hgood isWrite core state _ priority inProgress hfresh
  | tryLock isWrite core state hrange hfresh => exact h.tryLock hgood isWrite core state _ hfresh
  | unlock core p hl => exact hunlock core p _ hl
  | inspect isWrite core state write hl => exact h.inspect hgood isWrite core state write hl
  | lockPanic hmisuse => exact hmisuse.elim
  | panic hmisuse => exact hmisuse.elim

theorem Run.delivered (haccepts : ∀ p range, accepts p range → Table.Admissible True p range)
    (run : Run False accepts σ) : Delivered σ := by
  refine Run.induction haccepts Delivered
    (fun core p value visits σ => Delivering p value σ) ?_ ?_ ?_ ?_ ?_ run
  · refine ⟨trivial, rfl, fun p => ?_⟩
    rintro ⟨c, l, hl⟩
    cases hl
  · exact fun σ core p l _ hgood h hl => h.unlocking hgood hl
  · exact fun σ core p value x visits hrel h => h.visit hrel
  · exact fun σ core p value hrel h => h.unlocked hrel
  · exact fun σ σ' hgood h step hunlock => step.delivered hgood h hunlock

end System

/-! ## In memory -/

section Memory
variable {debug : Bool} {world : World Index Priority InProgress}
  {store : Store Index Priority InProgress} {tables : Tables Index Priority InProgress}
  {σ : System Index Priority InProgress} {p : LockPtr} {ph : Phase InProgress}

theorem SameLogWith.erase {log : Log Index Priority InProgress}
    {log' : List (Event Index Priority InProgress (Tables Index Priority InProgress))}
    (h : SameLog log log') : log.map Event.erase = log'.map Event.erase := by
  induction h with
  | nil => rfl
  | cons hevent _ ih =>
      rw [List.map_cons, List.map_cons, ih]
      cases hevent <;> rfl

theorem SimulatesWith.history_eq (h : Simulates world σ) : world.history = σ.history := h.log.erase

theorem ModelsWith.inPhase (h : Models tables store) (hphase : tables.InPhase p ph) :
    store.InPhase p ph := by
  have hcarries : ∀ w, store.waiter p = some w → tables.Carries p w.inProgress := by
    intro w hw
    obtain ⟨c, hc⟩ := h.waiter_iff.mp hw
    exact ⟨c, w, hc, rfl⟩
  cases ph with
  | free => exact h.parent_eq_none hphase
  | pending value =>
      obtain ⟨c, w, hw, rfl⟩ := hphase
      exact ⟨w, h.waiter_eq hw, rfl⟩
  | complete =>
      obtain ⟨⟨c, l, hl⟩, hnone⟩ := hphase
      refine ⟨?_, ?_⟩
      · rw [h.parent_eq hl]
        exact Option.some_ne_none c
      · cases hw : store.waiter p with
        | none => rfl
        | some w => exact absurd (hcarries w hw) (hnone _)

end Memory

/-- Each value that a lock call has made has been handed over once, or waits with its lock. -/
structure World.DeliversOnce (debug : Bool) (world : World Index Priority InProgress) : Prop where
  orderly : Logged (fun event history => event.Orderly history) world.history
  ended : underway world.history = []
  once : ∀ p, produced p world.history =
    (phase p world.history).value.toList ++ delivered p world.history
  stored : ∀ p, world.store.InPhase p (phase p world.history)
  /-- What `inspect_*_mut` would report. -/
  inspect : ∀ isWrite core state write, world.store.parent (lockPtr isWrite state) = some core →
    ∃ w, Call.perform debug (.inspect isWrite core state write) world = .ok
      (.inspected
        ((phase (lockPtr isWrite state) world.history).value.elim .complete .inProgress)) w
  /-- What `unlock_*` would return. -/
  unlock : ∀ core p, world.store.parent p = some core →
    ∃ w, Call.perform debug (.unlock core p) world = .ok
      (.unlocked (phase p world.history).value) w

theorem World.Run.exactly_once {debug : Bool} {world : World Index Priority InProgress}
    (run : World.Run debug False Nonempty world) : world.DeliversOnce debug := by
  obtain ⟨σ, hσ, hrun, hgood⟩ := run.system
  have hdelivered := hrun.delivered admissible_of_nonempty
  have hvalue : ∀ core p l, (σ.tables core).locks p = some l →
      (σ.tables core).waiting p = (phase p world.history).value := by
    intro core p l hl
    rw [hσ.history_eq,
      (hdelivered.phases p).eq_waiting (fun c => (hgood.quiet c).toSound) hgood.apart hl]
    cases (σ.tables core).waiting p <;> rfl
  refine ⟨?_, ?_, fun p => ?_, fun p => ?_, fun isWrite core state write hp => ?_,
    fun core p hp => ?_⟩
  · rw [hσ.history_eq]
    exact hdelivered.orderly
  · rw [hσ.history_eq]
    exact hdelivered.ended
  · rw [hσ.history_eq]
    exact produced_eq p hdelivered.orderly
  · rw [hσ.history_eq]
    exact hσ.models.inPhase (hdelivered.phases p)
  · obtain ⟨l, hl⟩ := hσ.models.exists_lock hp
    have hreturns : Runs (Call.perform debug (.inspect isWrite core state write)) world _ :=
      inspect_returns hσ hgood.coherent isWrite core state write hl
    obtain ⟨reply, w, hperform, -, hreply⟩ := hreturns
    rw [hvalue _ _ l hl] at hreply
    exact ⟨w, by rw [hperform, hreply]⟩
  · obtain ⟨l, hl⟩ := hσ.models.exists_lock hp
    have hreturns : Runs (Call.perform debug (.unlock core p)) world _ :=
      unlock_returns hσ hgood (fun _ => trivial) core p hl
    obtain ⟨reply, w, hperform, -, hreply⟩ := hreturns
    rw [hvalue _ _ l hl] at hreply
    exact ⟨w, by rw [hperform, hreply]⟩

/-- Two waiters have been completed, and one waits. -/
theorem exactly_once_handover : (World.after true handover).DeliversOnce true ∧
    produced (lockPtr true (slot 3)) (World.after true handover).history = [102] ∧
    delivered (lockPtr false (slot 2)) (World.after true handover).history = [101] :=
  ⟨World.Run.exactly_once (handover_run False), by decide +kernel, by decide +kernel⟩

end Interlock.Core
