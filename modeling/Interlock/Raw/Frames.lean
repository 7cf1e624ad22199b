import Interlock.Raw.Sync

/-!
# The frames of the lock calls

What is true of the lock calls that wait.  Each pending lock has its frame, whose flag is not set.
The flag of a frame is set when its lock is complete, or when the call under the mutex is completing
it.

The steps of the threads that wait keep this.
-/

namespace Interlock.Raw.Sync

open Interlock.Core Interlock.Memory Interlock.RbTree

variable {Index Priority Thread : Type} [LinearOrder Index] [LinearOrder Priority]
  [DecidableEq Thread]

/-! ## The phases of the locks -/

section Phases
variable {debug : Bool} {core : Addr} {store : Store Index Priority (InProgress Thread)}
  {history : History Index Priority (InProgress Thread)} {isWrite : Bool} {state : Addr}
  {range : Range Index} {priority : Priority} {value : InProgress Thread} {complete : Bool}
  {w : World Index Priority (InProgress Thread)} {p q : LockPtr}

omit [DecidableEq Thread]

/-- A lock call settles the phase of its lock. -/
theorem lock_phase (h : store.After history) (haccepted : debug = false → range.start < range.stop)
    (hrun : Call.perform debug (.lock isWrite core state range priority value) ⟨store, []⟩ =
      .ok (.locked complete) w) :
    ∃ history', w.store.After history' ∧ ∀ q, phase q history' =
      if lockPtr isWrite state = q then (if complete then .complete else .pending value)
      else phase q history := by
  obtain ⟨hemits, hafter⟩ := h.returned haccepted hrun
  refine ⟨_, hafter, fun q => ?_⟩
  generalize w.history = events at hemits
  cases hemits
  cases complete with
  | true => rfl
  | false => rfl

theorem tryLock_phase (h : store.After history)
    (haccepted : debug = false → range.start < range.stop)
    (hrun : Call.perform debug (.tryLock isWrite core state range) ⟨store, []⟩ =
      .ok (.locked complete) w) :
    ∃ history', w.store.After history' ∧ ∀ q, phase q history' =
      if tryLockPtr isWrite state = q ∧ complete = true then .complete else phase q history := by
  obtain ⟨hemits, hafter⟩ := h.returned haccepted hrun
  refine ⟨_, hafter, fun q => ?_⟩
  generalize w.history = events at hemits
  cases hemits
  cases complete with
  | true => simp [phase, Event.next]
  | false => simp [phase, Event.next]

end Phases

/-! ## The invariant -/

section Invariant
variable {debug : Bool} {core : Addr} {s s' : State Index Priority Thread}
  {history : History Index Priority (InProgress Thread)} {trace : List (Label Thread)}
  {call : Unlocking Index Priority Thread} {t : Thread} {frame : Frame} {p : LockPtr}

/-- The locks that the call under the mutex has completed so far. -/
def State.completed (s : State Index Priority Thread) : List LockPtr :=
  match s.mutex with
  | .held call => call.completed
  | .free | .poisoned => []

/-- The frames are those of the locks that wait, and of some that are complete. -/
structure Framed (history : History Index Priority (InProgress Thread))
    (s : State Index Priority Thread) : Prop where
  kind : ∀ t frame, s.frames t = some frame →
    frame.lock.kind = .read ∨ frame.lock.kind = .write
  flag_lt : ∀ t frame, s.frames t = some frame → frame.flag < s.calls
  lock_inj : ∀ t t' frame frame', s.frames t = some frame → s.frames t' = some frame' →
    frame.lock = frame'.lock → t = t'
  flag_inj : ∀ t t' frame frame', s.frames t = some frame → s.frames t' = some frame' →
    frame.flag = frame'.flag → t = t'
  status : ∀ t frame, s.frames t = some frame →
    (frame.complete = false ∧ frame.lock ∉ s.completed ∧
      phase frame.lock history = .pending ⟨frame.flag, t⟩) ∨
    (frame.complete = true ∧
      (frame.lock ∈ s.completed ∨ phase frame.lock history = .complete))
  waiting : ∀ p value, phase p history = .pending value → p ∉ s.completed →
    ∃ frame, s.frames value.waiter = some frame ∧ frame.flag = value.complete ∧ frame.lock = p

/-- What the call under the mutex is doing. -/
structure Held (core : Addr) (history : History Index Priority (InProgress Thread))
    (s : State Index Priority Thread) (call : Unlocking Index Priority Thread) : Prop where
  result : call.result = none
  release : ∃ events, (∀ event ∈ events, event.isRelease = true) ∧
    call.store.After (.returned (.unlock core call.lock) (.unlocked none) () ::
      (events ++ history)) ∧
    ∀ p, p ∈ (completions events).map Prod.fst ↔
      p ∈ call.completed ∨ p ∈ call.callbacks.map Prod.fst
  callbacks : ∀ x ∈ call.callbacks, phase x.1 history = .pending x.2 ∧ x.1 ∉ call.completed
  nodup : (call.callbacks.map Prod.fst).Nodup
  lock : ∀ t frame, s.frames t = some frame → frame.lock ≠ call.lock
  unparking : ∀ p value, call.unparking = some (p, value) → value.complete < s.calls ∧
    ∀ frame, s.frames value.waiter = some frame → frame.flag = value.complete →
      frame.complete = true

/-- A thread that has been unparked for its lock call does not park for good. -/
def Woken (trace : List (Label Thread)) (s : State Index Priority Thread) : Prop :=
  ∀ p value, .unparked p value ∈ trace → value.complete < s.calls ∧
    ∀ frame, s.frames value.waiter = some frame → frame.flag = value.complete →
      frame.complete = true ∧ (frame.parking = true → s.token value.waiter = true)

structure Valid (core : Addr) (trace : List (Label Thread)) (s : State Index Priority Thread)
    (history : History Index Priority (InProgress Thread)) : Prop where
  after : s.store.After history
  framed : Framed history s
  held : ∀ call, s.mutex = .held call → Held core history s call
  woken : Woken trace s

/-! ## Steps of the frames -/

/-- The frames of `s'` are frames of `s`, which may be about to load or to park. -/
def Within (s s' : State Index Priority Thread) : Prop :=
  ∀ t frame', s'.frames t = some frame' → ∃ frame, s.frames t = some frame ∧
    frame.flag = frame'.flag ∧ frame.complete = frame'.complete ∧ frame.lock = frame'.lock

/-- No frame of a waiting lock is missing. -/
def Keeps (s s' : State Index Priority Thread) : Prop :=
  ∀ t frame, s.frames t = some frame → frame.complete = false →
    ∃ frame', s'.frames t = some frame' ∧
    frame'.flag = frame.flag ∧ frame'.lock = frame.lock

omit [LinearOrder Index] [LinearOrder Priority] [DecidableEq Thread] in
theorem Framed.of_within (h : Framed history s) (hwithin : Within s s') (hkeeps : Keeps s s')
    (hcalls : s'.calls = s.calls) (hcompleted : s'.completed = s.completed) :
    Framed history s' where
  kind t frame' hframe' := by
    obtain ⟨frame, hframe, -, -, hlock⟩ := hwithin t frame' hframe'
    exact hlock ▸ h.kind t frame hframe
  flag_lt t frame' hframe' := by
    obtain ⟨frame, hframe, hflag, -, -⟩ := hwithin t frame' hframe'
    rw [hcalls, ← hflag]
    exact h.flag_lt t frame hframe
  lock_inj t t' frame₁ frame₂ h₁ h₂ hlock := by
    obtain ⟨frame₁', h₁', -, -, hlock₁⟩ := hwithin t frame₁ h₁
    obtain ⟨frame₂', h₂', -, -, hlock₂⟩ := hwithin t' frame₂ h₂
    exact h.lock_inj t t' _ _ h₁' h₂' (by rw [hlock₁, hlock₂, hlock])
  flag_inj t t' frame₁ frame₂ h₁ h₂ hflag := by
    obtain ⟨frame₁', h₁', hflag₁, -, -⟩ := hwithin t frame₁ h₁
    obtain ⟨frame₂', h₂', hflag₂, -, -⟩ := hwithin t' frame₂ h₂
    exact h.flag_inj t t' _ _ h₁' h₂' (by rw [hflag₁, hflag₂, hflag])
  status t frame' hframe' := by
    obtain ⟨frame, hframe, hflag, hcomplete, hlock⟩ := hwithin t frame' hframe'
    rw [hcompleted, ← hflag, ← hcomplete, ← hlock]
    exact h.status t frame hframe
  waiting p value hphase hp := by
    rw [hcompleted] at hp
    obtain ⟨frame, hframe, hflag, rfl⟩ := h.waiting p value hphase hp
    have hcomplete : frame.complete = false := by
      rcases h.status _ frame hframe with hstatus | ⟨-, hmem | hdone⟩
      · exact hstatus.1
      · exact absurd hmem hp
      · rw [hphase] at hdone
        cases hdone
    obtain ⟨frame', hframe', hflag', hlock'⟩ := hkeeps _ frame hframe hcomplete
    exact ⟨frame', hframe', hflag'.trans hflag, hlock'⟩

omit [DecidableEq Thread] in
theorem Held.of_within (h : Held core history s call) (hwithin : Within s s')
    (hcalls : s'.calls = s.calls) : Held core history s' call where
  result := h.result
  release := h.release
  callbacks := h.callbacks
  nodup := h.nodup
  lock t frame' hframe' := by
    obtain ⟨frame, hframe, -, -, hlock⟩ := hwithin t frame' hframe'
    exact hlock ▸ h.lock t frame hframe
  unparking p value hunparking := by
    obtain ⟨hlt, hcomplete⟩ := h.unparking p value hunparking
    refine ⟨hcalls ▸ hlt, fun frame' hframe' hflag' => ?_⟩
    obtain ⟨frame, hframe, hflag, heq, -⟩ := hwithin _ frame' hframe'
    exact heq ▸ hcomplete frame hframe (hflag.trans hflag')

omit [DecidableEq Thread] in
/-- A step of a thread that waits. -/
theorem Valid.of_within {label : Label Thread} (h : Valid core trace s history)
    (hstore : s'.store = s.store) (hmutex : s'.mutex = s.mutex) (hcalls : s'.calls = s.calls)
    (hwithin : Within s s') (hkeeps : Keeps s s')
    (hlabel : ∀ p value, label ≠ .unparked p value)
    (hwoken : ∀ t frame', s'.frames t = some frame' → frame'.parking = true →
      frame'.complete = false ∨ ∃ frame, s.frames t = some frame ∧ frame.parking = true ∧
        (s.token t = true → s'.token t = true)) :
    Valid core (label :: trace) s' history where
  after := hstore ▸ h.after
  framed := by
    have hcompleted : s'.completed = s.completed := by rw [State.completed, State.completed, hmutex]
    exact h.framed.of_within hwithin hkeeps hcalls hcompleted
  held call hcall := (h.held call (hmutex ▸ hcall)).of_within hwithin hcalls
  woken p value hmem := by
    rcases List.mem_cons.mp hmem with heq | hmem
    · exact absurd heq.symm (hlabel p value)
    · obtain ⟨hlt, hframe⟩ := h.woken p value hmem
      refine ⟨hcalls ▸ hlt, fun frame' hframe' hflag' => ?_⟩
      obtain ⟨frame, hf, hflag, hcomplete, -⟩ := hwithin _ frame' hframe'
      obtain ⟨hdone, hparks⟩ := hframe frame hf (hflag.trans hflag')
      refine ⟨hcomplete ▸ hdone, fun hparking => ?_⟩
      rcases hwoken _ frame' hframe' hparking with hnot | ⟨frame₂, hf₂, hparking₂, htoken⟩
      · rw [← hcomplete, hdone] at hnot
        cases hnot
      · obtain rfl := Option.some.inj (hf.symm.trans hf₂)
        exact htoken (hparks hparking₂)

/-! ## Threads that wait -/

omit [LinearOrder Index] [LinearOrder Priority] in
theorem within_update (hframe : s.frames t = some frame) (parking : Bool) :
    Within s { s with frames := Function.update s.frames t (some { frame with parking }) } := by
  intro t' frame' hframe'
  have hframe' : Function.update s.frames t (some { frame with parking }) t' = some frame' :=
    hframe'
  by_cases ht : t' = t
  · rw [ht, Function.update_self] at hframe'
    obtain rfl := Option.some.inj hframe'
    exact ⟨frame, ht ▸ hframe, rfl, rfl, rfl⟩
  · rw [Function.update_of_ne ht] at hframe'
    exact ⟨frame', hframe', rfl, rfl, rfl⟩

omit [LinearOrder Index] [LinearOrder Priority] in
theorem keeps_update (hframe : s.frames t = some frame) (parking : Bool) :
    Keeps s { s with frames := Function.update s.frames t (some { frame with parking }) } := by
  intro t' frame' hframe' _
  by_cases ht : t' = t
  · rw [ht, hframe] at hframe'
    obtain rfl := Option.some.inj hframe'
    refine ⟨{ frame with parking }, ?_, rfl, rfl⟩
    show Function.update s.frames t _ t' = _
    rw [ht, Function.update_self]
  · exact ⟨frame', (Function.update_of_ne ht ..).trans hframe', rfl, rfl⟩

theorem Valid.loadTrue (h : Valid core trace s history) (hframe : s.frames t = some frame)
    (hcomplete : frame.complete = true) :
    Valid core (.lockReturned t frame.lock :: trace)
      { s with frames := Function.update s.frames t none } history := by
  have hsub : ∀ t' frame', Function.update s.frames t none t' = some frame' →
      s.frames t' = some frame' := by
    intro t' frame' hframe'
    by_cases ht : t' = t
    · rw [ht, Function.update_self] at hframe'
      cases hframe'
    · rwa [Function.update_of_ne ht] at hframe'
  refine h.of_within rfl rfl rfl ?_ ?_ nofun ?_
  · exact fun t' frame' hframe' => ⟨frame', hsub t' frame' hframe', rfl, rfl, rfl⟩
  · intro t' frame' hframe' hnot
    have ht : t' ≠ t := by
      rintro rfl
      rw [hframe] at hframe'
      obtain rfl := Option.some.inj hframe'
      rw [hcomplete] at hnot
      cases hnot
    exact ⟨frame', (Function.update_of_ne ht ..).trans hframe', rfl, rfl⟩
  · exact fun t' frame' hframe' hparking =>
      Or.inr ⟨frame', hsub t' frame' hframe', hparking, id⟩

theorem Valid.loadFalse (h : Valid core trace s history) (hframe : s.frames t = some frame)
    (hcomplete : frame.complete = false) :
    Valid core (.silent :: trace)
      { s with frames := Function.update s.frames t (some { frame with parking := true }) }
      history := by
  refine h.of_within rfl rfl rfl (within_update hframe true) (keeps_update hframe true) nofun ?_
  intro t' frame' hframe' hparking
  have hframe' : Function.update s.frames t (some { frame with parking := true }) t' =
      some frame' := hframe'
  by_cases ht : t' = t
  · rw [ht, Function.update_self] at hframe'
    obtain rfl := Option.some.inj hframe'
    exact Or.inl hcomplete
  · rw [Function.update_of_ne ht] at hframe'
    exact Or.inr ⟨frame', hframe', hparking, id⟩

/-- `park` returns, and what is left of the token does not matter. -/
theorem Valid.park (h : Valid core trace s history) (hframe : s.frames t = some frame)
    (token : Thread → Bool) (htoken : ∀ t', t' ≠ t → token t' = s.token t') :
    Valid core (.silent :: trace)
      { s with
        frames := Function.update s.frames t (some { frame with parking := false })
        token := token } history := by
  refine h.of_within rfl rfl rfl (within_update hframe false) (keeps_update hframe false) nofun ?_
  intro t' frame' hframe' hparking
  have hframe' : Function.update s.frames t (some { frame with parking := false }) t' =
      some frame' := hframe'
  by_cases ht : t' = t
  · rw [ht, Function.update_self] at hframe'
    obtain rfl := Option.some.inj hframe'
    cases hparking
  · rw [Function.update_of_ne ht] at hframe'
    exact Or.inr ⟨frame', hframe', hparking, fun h => (htoken t' ht).trans h⟩

omit [DecidableEq Thread] in
/-- The token of a thread that is not in a lock call. -/
theorem Valid.other (h : Valid core trace s history) (token : Thread → Bool)
    (htoken : ∀ t frame, s.frames t = some frame → s.token t = true → token t = true) :
    Valid core (.silent :: trace) { s with token := token } history := by
  refine h.of_within rfl rfl rfl ?_ ?_ nofun ?_
  · exact fun t frame hframe => ⟨frame, hframe, rfl, rfl, rfl⟩
  · exact fun t frame hframe _ => ⟨frame, hframe, rfl, rfl⟩
  · exact fun t frame hframe hparking => Or.inr ⟨frame, hframe, hparking, htoken t frame hframe⟩

end Invariant

end Interlock.Raw.Sync
