import Interlock.Core.Progress
import Interlock.Raw.Blocking

/-!
# The threads go on

The threads that wait, and the call under the mutex, take some steps by themselves.  They come to
rest after finitely many of them, and a thread that still waits then does so because of a lock that
somebody has been given and has not unlocked.

Ranges are non-empty where debug assertions are off, as in `Sync`.  Without this a thread could wait
for a lock of an empty range that stands in nobody's way when it is unlocked, and be left behind.
-/

namespace Interlock.Raw.Sync

open Interlock.Core Interlock.Memory Interlock.RbTree

variable {Index Priority Thread : Type} [LinearOrder Index] [LinearOrder Priority]
  [DecidableEq Thread]

/-! ## Steps that need nobody else -/

/-- A step that a waiting thread takes, other than by a spurious return of `park`, or the call under
the mutex. -/
inductive Advance (debug : Bool) (core : Addr) (s s' : State Index Priority Thread) : Prop where
  | stored (p : LockPtr) (inProgress : InProgress Thread)
      (step : Step debug core s (.stored p inProgress) s')
  | unparked (p : LockPtr) (inProgress : InProgress Thread)
      (step : Step debug core s (.unparked p inProgress) s')
  | unlocked (p : LockPtr) (result : Option (InProgress Thread))
      (step : Step debug core s (.unlocked p result) s')
  | returns (t : Thread) (p : LockPtr) {frame : Frame} (hframe : s.frames t = some frame)
      (step : Step debug core s (.lockReturned t p) s')
  | loads (t : Thread) {frame : Frame} (hframe : s.frames t = some frame)
      (hparking : frame.parking = false) (hcomplete : frame.complete = false)
      (hs' : s' = { s with
        frames := Function.update s.frames t (some { frame with parking := true }) })
  | wakes (t : Thread) {frame : Frame} (hframe : s.frames t = some frame)
      (hparking : frame.parking = true) (htoken : s.token t = true)
      (hs' : s' = { s with
        frames := Function.update s.frames t (some { frame with parking := false })
        token := Function.update s.token t false })

/-- All threads that wait are parked, and nobody holds the mutex. -/
def State.Resting (debug : Bool) (core : Addr) (s : State Index Priority Thread) : Prop :=
  ∀ s', ¬ Advance debug core s s'

section Steps
variable {debug : Bool} {core : Addr} {s s' : State Index Priority Thread}

theorem Advance.step (h : Advance debug core s s') : ∃ label, Step debug core s label s' := by
  cases h with
  | stored p inProgress step => exact ⟨_, step⟩
  | unparked p inProgress step => exact ⟨_, step⟩
  | unlocked p result step => exact ⟨_, step⟩
  | returns t p hframe step => exact ⟨_, step⟩
  | loads t hframe hparking hcomplete hs' =>
      subst hs'
      exact ⟨_, .loadFalse t hframe hparking hcomplete⟩
  | wakes t hframe hparking htoken hs' =>
      subst hs'
      exact ⟨_, .park t hframe hparking htoken⟩

end Steps

/-! ## How many steps there are -/

/-- A frame whose thread has a token goes around its loop once more. -/
def Frame.work (token : Bool) (frame : Frame) : ℕ :=
  1 + (if frame.parking then 0 else 1) + if token then 2 else 0

/-- A callback stores, and then it unparks a thread, which may give the thread a token. -/
def Mutex.work : Mutex Index Priority Thread → ℕ
  | .held call => 1 + 4 * call.callbacks.length + if call.unparking.isSome then 3 else 0
  | .free | .poisoned => 0

/-- What a thread has to do in its lock call. -/
def workOf (frames : Thread → Option Frame) (token : Thread → Bool) (t : Thread) : ℕ :=
  (frames t).elim 0 (Frame.work (token t))

/-- A bound of the number of steps, if no other threads wait. -/
def State.work (threads : Finset Thread) (s : State Index Priority Thread) : ℕ :=
  s.mutex.work + ∑ t ∈ threads, workOf s.frames s.token t

section Work
variable {debug : Bool} {core : Addr} {s s' : State Index Priority Thread} {t : Thread}
  {frames frames' : Thread → Option Frame} {token token' : Thread → Bool} {frame : Frame}
  {threads : Finset Thread}

omit [DecidableEq Thread] in
/-- One thread has less to do, and the others have as much to do as before. -/
theorem sum_workOf_lt (ht : t ∈ threads)
    (hlt : workOf frames' token' t < workOf frames token t)
    (hsame : ∀ t', t' ≠ t → workOf frames' token' t' = workOf frames token t') :
    ∑ t' ∈ threads, workOf frames' token' t' < ∑ t' ∈ threads, workOf frames token t' := by
  apply Finset.sum_lt_sum
  · intro t' _
    by_cases htt : t' = t
    · rw [htt]
      exact hlt.le
    · exact (hsame t' htt).le
  · exact ⟨t, ht, hlt⟩

/-- A token adds two steps at most. -/
theorem sum_workOf_unpark (t : Thread) :
    ∑ t' ∈ threads, workOf frames (Function.update token t true) t' ≤
      ∑ t' ∈ threads, workOf frames token t' + 2 := by
  have hle : ∀ t', workOf frames (Function.update token t true) t' ≤
      workOf frames token t' + if t' = t then 2 else 0 := by
    intro t'
    unfold workOf
    cases frames t' with
    | none => simp
    | some frame =>
        by_cases ht : t' = t
        · subst ht
          simp only [Option.elim_some, Frame.work, Function.update_self, if_true]
          omega
        · simp [ht]
  have hsum : ∑ t' ∈ threads, (if t' = t then 2 else 0) ≤ 2 := by
    rw [Finset.sum_ite_eq']
    split <;> omega
  calc ∑ t' ∈ threads, workOf frames (Function.update token t true) t'
      ≤ ∑ t' ∈ threads, (workOf frames token t' + if t' = t then 2 else 0) :=
        Finset.sum_le_sum fun t' _ => hle t'
    _ = ∑ t' ∈ threads, workOf frames token t' + ∑ t' ∈ threads, (if t' = t then 2 else 0) :=
        Finset.sum_add_distrib
    _ ≤ ∑ t' ∈ threads, workOf frames token t' + 2 := Nat.add_le_add_left hsum _

omit [DecidableEq Thread] in
/-- What the flag says is not counted. -/
theorem workOf_storeFlag (flag : Flag) (t : Thread) :
    workOf (storeFlag flag frames) token t = workOf frames token t := by
  unfold workOf storeFlag
  cases frames t with
  | none => rfl
  | some frame =>
      rw [Option.map_some, Option.elim_some, Option.elim_some]
      split <;> rfl

theorem Advance.work_lt (h : Advance debug core s s')
    (hthreads : ∀ t, s.frames t ≠ none → t ∈ threads) : s'.work threads < s.work threads := by
  have hmem : ∀ {t frame}, s.frames t = some frame → t ∈ threads := by
    intro t frame hframe
    apply hthreads
    rw [hframe]
    simp
  unfold State.work
  cases h with
  | stored p inProgress step =>
      cases step with
      | store hmutex hunparking hcallbacks =>
          simp only [workOf_storeFlag, hmutex, Mutex.work, hcallbacks, hunparking, List.length_cons,
            Option.isSome_some, Option.isSome_none, if_true, Bool.false_eq_true, if_false]
          omega
  | unparked p inProgress step =>
      cases step with
      | unpark hmutex hunparking =>
          have hsum : ∑ t ∈ threads,
              workOf s.frames (Function.update s.token inProgress.waiter true) t ≤
              ∑ t ∈ threads, workOf s.frames s.token t + 2 := sum_workOf_unpark _
          simp only [hmutex, Mutex.work, hunparking, Option.isSome_some,
            Option.isSome_none, if_true,
            Bool.false_eq_true, if_false]
          omega
  | unlocked p result step =>
      cases step with
      | unlocked hmutex hunparking hcallbacks =>
          apply Nat.add_lt_add_right
          rw [hmutex]
          split <;> simp only [Mutex.work] <;> omega
  | returns t p hframe step =>
      cases step with
      | lockComplete _ _ _ _ _ _ hnone =>
          rw [hframe] at hnone
          cases hnone
      | loadTrue _ hframe' =>
          apply Nat.add_lt_add_left
          refine sum_workOf_lt (hmem hframe) ?_ fun t' ht => ?_
          · simp only [workOf, Function.update_self, hframe, Option.elim_none, Option.elim_some,
              Frame.work]
            omega
          · simp only [workOf, Function.update_of_ne ht]
  | loads t hframe hparking hcomplete hs' =>
      subst hs'
      apply Nat.add_lt_add_left
      refine sum_workOf_lt (hmem hframe) ?_ fun t' ht => ?_
      · simp only [workOf, Function.update_self, hframe, Option.elim_some, Frame.work, hparking,
          if_true, Bool.false_eq_true, if_false]
        omega
      · simp only [workOf, Function.update_of_ne ht]
  | wakes t hframe hparking htoken hs' =>
      subst hs'
      apply Nat.add_lt_add_left
      refine sum_workOf_lt (hmem hframe) ?_ fun t' ht => ?_
      · simp only [workOf, Function.update_self, hframe, Option.elim_some, Frame.work, hparking,
          htoken, if_true, Bool.false_eq_true, if_false]
        omega
      · simp only [workOf, Function.update_of_ne ht]

/-- Nobody begins to wait. -/
theorem Advance.waits (h : Advance debug core s s') (ht : s'.frames t ≠ none) :
    s.frames t ≠ none := by
  have hupdate : ∀ {t' : Thread} {frame : Frame} {frame' : Option Frame},
      s.frames t' = some frame → Function.update s.frames t' frame' t ≠ none →
      s.frames t ≠ none := by
    intro t' frame frame' hframe ht
    by_cases htt : t = t'
    · rw [htt, hframe]
      simp
    · rwa [Function.update_of_ne htt] at ht
  cases h with
  | stored p inProgress step =>
      cases step with
      | store hmutex hunparking hcallbacks => simpa [storeFlag] using ht
  | unparked p inProgress step =>
      cases step with
      | unpark hmutex hunparking => exact ht
  | unlocked p result step =>
      cases step with
      | unlocked hmutex hunparking hcallbacks => exact ht
  | returns t' p hframe step =>
      cases step with
      | lockComplete => exact ht
      | loadTrue => exact hupdate hframe ht
  | loads t' hframe hparking hcomplete hs' =>
      subst hs'
      exact hupdate hframe ht
  | wakes t' hframe hparking htoken hs' =>
      subst hs'
      exact hupdate hframe ht

end Work

/-! ## The flags that are set -/

section Invariant
variable {debug : Bool} {core : Addr} {s s' : State Index Priority Thread}
  {history : History Index Priority (InProgress Thread)} {trace : List (Label Thread)}
  {label : Label Thread} {t : Thread} {frame : Frame}

/-- The thread of a lock call whose flag is set has been unparked, or will be by the call under the
mutex. -/
def Notified (trace : List (Label Thread)) (s : State Index Priority Thread) : Prop :=
  ∀ t frame, s.frames t = some frame → frame.complete = true →
    (∃ p, .unparked p ⟨frame.flag, t⟩ ∈ trace) ∨
    ∃ call p, s.mutex = .held call ∧ call.unparking = some (p, ⟨frame.flag, t⟩)

/-- The core of the lock is the only one, also in the call under the mutex. -/
def State.OnlyCore (core : Addr) (s : State Index Priority Thread) : Prop :=
  s.store.OnlyCore core ∧ ∀ call, s.mutex = .held call → call.store.OnlyCore core

omit [LinearOrder Index] [LinearOrder Priority] [DecidableEq Thread] in
/-- A step that sets no flag, and does not end the call of a callback. -/
theorem Notified.of_within (h : Notified trace s) (hwithin : Within s s')
    (hmutex : ∀ call x, s.mutex = .held call → call.unparking = some x → s'.mutex = s.mutex) :
    Notified (label :: trace) s' := by
  intro t frame' hframe' hcomplete'
  obtain ⟨frame, hframe, hflag, hcomplete, -⟩ := hwithin t frame' hframe'
  rcases h t frame hframe (hcomplete.trans hcomplete') with ⟨p, hp⟩ | ⟨call, p, hcall, hunparking⟩
  · exact Or.inl ⟨p, List.mem_cons_of_mem _ (hflag ▸ hp)⟩
  · exact Or.inr ⟨call, p, (hmutex call _ hcall hunparking).trans hcall, hflag ▸ hunparking⟩

omit [LinearOrder Index] [LinearOrder Priority] [DecidableEq Thread] in
theorem within_of_frames (hframes : s'.frames = s.frames) : Within s s' :=
  fun _ frame hframe => ⟨frame, hframes ▸ hframe, rfl, rfl, rfl⟩

omit [LinearOrder Index] [LinearOrder Priority] [DecidableEq Thread] in
theorem not_unparking (hmutex : s.mutex = .free) (call : Unlocking Index Priority Thread)
    (x : LockPtr × InProgress Thread) (hcall : s.mutex = .held call)
    (_ : call.unparking = some x) : s'.mutex = s.mutex := by
  rw [hmutex] at hcall
  cases hcall

theorem Notified.step (h : Notified trace s) (hvalid : Valid core trace s history)
    (step : Step debug core s label s') : Notified (label :: trace) s' := by
  cases step with
  | lockComplete t isWrite range priority state hmutex =>
      exact h.of_within (within_of_frames rfl) (not_unparking hmutex)
  | lockWait t isWrite range priority state hmutex hframe =>
      intro t' frame' hframe' hcomplete'
      have hframe' : Function.update s.frames t
          (some ⟨s.calls, false, lockPtr isWrite state, false⟩) t' = some frame' := hframe'
      by_cases ht : t' = t
      · rw [ht, Function.update_self] at hframe'
        obtain rfl := Option.some.inj hframe'
        cases hcomplete'
      · rw [Function.update_of_ne ht] at hframe'
        rcases h t' frame' hframe' hcomplete' with ⟨p, hp⟩ | ⟨call, p, hcall, -⟩
        · exact Or.inl ⟨p, List.mem_cons_of_mem _ hp⟩
        · rw [hmutex] at hcall
          cases hcall
  | loadTrue t hframe hparking hcomplete =>
      refine h.of_within (fun t' frame' hframe' => ?_) fun _ _ _ _ => rfl
      have hframe' : Function.update s.frames t none t' = some frame' := hframe'
      by_cases ht : t' = t
      · rw [ht, Function.update_self] at hframe'
        cases hframe'
      · rw [Function.update_of_ne ht] at hframe'
        exact ⟨frame', hframe', rfl, rfl, rfl⟩
  | loadFalse t hframe hparking hcomplete =>
      exact h.of_within (within_update hframe true) fun _ _ _ _ => rfl
  | park t hframe hparking htoken =>
      exact h.of_within (within_update hframe false) fun _ _ _ _ => rfl
  | parkSpurious t hframe hparking =>
      exact h.of_within (within_update hframe false) fun _ _ _ _ => rfl
  | tryLock t isWrite range state hmutex =>
      exact h.of_within (within_of_frames rfl) (not_unparking hmutex)
  | unlock t p hmutex => exact h.of_within (within_of_frames rfl) (not_unparking hmutex)
  | @store call p value rest hmutex hunparking hcallbacks =>
      intro t' frame' hframe' hcomplete'
      obtain ⟨frame, hframe, rfl⟩ := Option.map_eq_some_iff.mp hframe'
      by_cases hflag : frame.flag = value.complete
      · -- It is the frame of the lock that is being completed
        right
        obtain ⟨frame₂, hframe₂, hflag₂, -⟩ := hvalid.callback_frame hmutex hcallbacks
        obtain rfl := hvalid.framed.flag_inj t' value.waiter _ _ hframe hframe₂
          (hflag.trans hflag₂.symm)
        refine ⟨_, p, rfl, ?_⟩
        rw [if_pos hflag, hflag]
      · rw [if_neg hflag] at hcomplete' ⊢
        rcases h t' frame hframe hcomplete' with ⟨q, hq⟩ | ⟨call', q, hcall', hunparking'⟩
        · exact Or.inl ⟨q, List.mem_cons_of_mem _ hq⟩
        · obtain rfl : call = call' := Mutex.held.inj (hmutex.symm.trans hcall')
          rw [hunparking] at hunparking'
          cases hunparking'
  | @unpark call p value hmutex hunparking =>
      intro t' frame' hframe' hcomplete'
      rcases h t' frame' hframe' hcomplete' with ⟨q, hq⟩ | ⟨call', q, hcall', hunparking'⟩
      · exact Or.inl ⟨q, List.mem_cons_of_mem _ hq⟩
      · obtain rfl : call = call' := Mutex.held.inj (hmutex.symm.trans hcall')
        obtain ⟨rfl, rfl⟩ := Prod.mk.inj (Option.some.inj (hunparking.symm.trans hunparking'))
        exact Or.inl ⟨p, List.mem_cons_self⟩
  | @unlocked call hmutex hunparking hcallbacks =>
      refine h.of_within (within_of_frames rfl) fun call' x hcall' hunparking' => ?_
      obtain rfl : call = call' := Mutex.held.inj (hmutex.symm.trans hcall')
      rw [hunparking] at hunparking'
      cases hunparking'
  | panicked t call hmutex => exact h.of_within (within_of_frames rfl) (not_unparking hmutex)
  | otherUnpark t => exact h.of_within (within_of_frames rfl) fun _ _ _ _ => rfl
  | otherPark t hframe => exact h.of_within (within_of_frames rfl) fun _ _ _ _ => rfl

theorem State.OnlyCore.step (h : s.OnlyCore core) (hvalid : Valid core trace s history)
    (step : Step debug core s label s') : s'.OnlyCore core := by
  have hcall : ∀ {call : Call Index Priority (InProgress Thread)} {reply w}, call.core = core →
      call.perform debug ⟨s.store, []⟩ = .ok reply w → w.store.OnlyCore core :=
    fun hcore hrun => hvalid.after.onlyCore h.1 hcore hrun
  have hfree : ∀ {store : Store Index Priority (InProgress Thread)}, store.OnlyCore core →
      s.mutex = .free → store.OnlyCore core ∧
        ∀ call, s.mutex = .held call → call.store.OnlyCore core := by
    intro store honly hmutex
    refine ⟨honly, fun call hheld => ?_⟩
    rw [hmutex] at hheld
    cases hheld
  cases step with
  | lockComplete t isWrite range priority state hmutex hframe hborrow haccepted hrun =>
      exact hfree (hcall rfl hrun) hmutex
  | lockWait t isWrite range priority state hmutex hframe hborrow haccepted hrun =>
      exact hfree (hcall rfl hrun) hmutex
  | tryLock t isWrite range state hmutex hframe haccepted hrun =>
      exact hfree (hcall rfl hrun) hmutex
  | unlock t p hmutex hframe hborrow hrun =>
      refine ⟨h.1, fun call hheld => ?_⟩
      obtain rfl := Mutex.held.inj hheld
      exact hcall rfl hrun
  | store hmutex =>
      have honly := h.2 _ hmutex
      refine ⟨h.1, fun call hheld => ?_⟩
      obtain rfl := Mutex.held.inj hheld
      exact honly
  | unpark hmutex =>
      have honly := h.2 _ hmutex
      refine ⟨h.1, fun call hheld => ?_⟩
      obtain rfl := Mutex.held.inj hheld
      exact honly
  | unlocked hmutex =>
      refine ⟨h.2 _ hmutex, fun call hheld => ?_⟩
      have hheld : (if _ then .poisoned else .free : Mutex Index Priority Thread) = .held call :=
        hheld
      split at hheld <;> cases hheld
  | panicked t call hmutex hframe haccepted hrun =>
      obtain ⟨hstore, -⟩ := hvalid.after.panicked haccepted hrun
      refine ⟨hstore ▸ h.1, fun call hheld => ?_⟩
      cases hheld
  | loadTrue | loadFalse | park | parkSpurious | otherUnpark | otherPark => exact h

theorem Run.notified (run : Run debug core trace s) : Notified trace s ∧ s.OnlyCore core := by
  induction run with
  | init =>
      refine ⟨fun t frame hframe => ?_, fun p c hp => ?_, fun call hheld => ?_⟩
      · cases hframe
      · cases hp
      · cases hheld
  | step run step ih =>
      obtain ⟨history, hvalid⟩ := run.valid
      exact ⟨ih.1.step hvalid step, ih.2.step hvalid step⟩

/-! ## Rest -/

/-- At rest the flags of the threads that wait are not set. -/
theorem State.Resting.pending (h : s.Resting debug core) (hvalid : Valid core trace s history)
    (hnotified : Notified trace s) (hframe : s.frames t = some frame) :
    ∃ w, s.store.waiter frame.lock = some w := by
  have hheld : ∀ call, s.mutex ≠ .held call := by
    intro call hmutex
    cases hunparking : call.unparking with
    | some x => exact h _ (.unparked x.1 x.2 (.unpark hmutex hunparking))
    | none =>
        cases hcallbacks : call.callbacks with
        | nil => exact h _ (.unlocked _ _ (.unlocked hmutex hunparking hcallbacks))
        | cons x rest => exact h _ (.stored x.1 x.2 (.store hmutex hunparking hcallbacks))
  have hcomplete : frame.complete = false := by
    by_contra hset
    have hset : frame.complete = true := by simpa using hset
    rcases hnotified t frame hframe hset with ⟨p, hp⟩ | ⟨call, -, hmutex, -⟩
    · cases hparking : frame.parking with
      | false => exact h _ (.returns t _ hframe (.loadTrue t hframe hparking hset))
      | true =>
          have htoken := ((hvalid.woken p _ hp).2 frame hframe rfl).2 hparking
          exact h _ (.wakes t hframe hparking htoken rfl)
    · exact hheld call hmutex
  rcases hvalid.framed.status t frame hframe with ⟨-, -, hphase⟩ | ⟨hset, -⟩
  · have hinPhase := hvalid.after.inPhase frame.lock
    rw [hphase] at hinPhase
    obtain ⟨w, hw, -⟩ := hinPhase
    exact ⟨w, hw⟩
  · rw [hcomplete] at hset
    cases hset

omit [LinearOrder Index] [LinearOrder Priority] [DecidableEq Thread] in
/-- The frames have different flags, of which there are finitely many. -/
theorem Framed.finite (h : Framed history s) :
    ∃ threads : Finset Thread, ∀ t, s.frames t ≠ none → t ∈ threads := by
  have hfinite : {t | s.frames t ≠ none}.Finite := by
    set flag : Thread → ℕ := fun t => (s.frames t).elim 0 Frame.flag with hflag
    apply Set.Finite.of_finite_image (f := flag)
    · apply (Set.finite_lt_nat s.calls).subset
      intro n hn
      obtain ⟨t, ht, rfl⟩ := hn
      obtain ⟨frame, hframe⟩ := Option.ne_none_iff_exists'.mp ht
      have hlt := h.flag_lt t frame hframe
      simpa [hflag, hframe] using hlt
    · intro t ht t' ht' heq
      obtain ⟨frame, hframe⟩ := Option.ne_none_iff_exists'.mp ht
      obtain ⟨frame', hframe'⟩ := Option.ne_none_iff_exists'.mp ht'
      simp only [hflag, hframe, hframe', Option.elim_some] at heq
      exact h.flag_inj t t' frame frame' hframe hframe' heq
  exact ⟨hfinite.toFinset, fun t ht => hfinite.mem_toFinset.mpr ht⟩

/-- Left to themselves, the threads that wait and the call under the mutex come to rest.  Who still
waits then does so, be it through others, for a lock that is complete, and whose lock call has
returned. -/
theorem Run.comes_to_rest (run : Run debug core trace s) :
    (∃ n, ∀ states : ℕ → State Index Priority Thread, states 0 = s →
      ∃ k ≤ n, ¬ Advance debug core (states k) (states (k + 1))) ∧
    (s.Resting debug core → ∀ t frame, s.frames t = some frame →
      ∃ q, Relation.TransGen (s.store.WaitsFor core) frame.lock q ∧ s.store.Complete core q ∧
        ¬ s.Borrowed q) := by
  obtain ⟨history, hvalid⟩ := run.valid
  obtain ⟨hnotified, honly⟩ := run.notified
  constructor
  · obtain ⟨threads, hthreads⟩ := hvalid.framed.finite
    refine ⟨s.work threads, fun states hs => ?_⟩
    by_contra hforever
    push Not at hforever
    have hwork : ∀ k ≤ s.work threads + 1,
        (∀ t, (states k).frames t ≠ none → t ∈ threads) ∧
        (states k).work threads + k ≤ s.work threads := by
      intro k
      induction k with
      | zero =>
          intro _
          rw [hs]
          exact ⟨hthreads, le_rfl⟩
      | succ k ih =>
          intro hk
          obtain ⟨hmem, hle⟩ := ih (by omega)
          have hadvance := hforever k (by omega)
          have hlt := hadvance.work_lt hmem
          exact ⟨fun t ht => hmem t (hadvance.waits ht), by omega⟩
    have hle := (hwork _ le_rfl).2
    omega
  · intro hrest t frame hframe
    obtain ⟨w, hw⟩ := hrest.pending hvalid hnotified hframe
    obtain ⟨q, hchain, hcomplete⟩ := hvalid.after.waits_for_complete honly.1 hw
    refine ⟨q, hchain, hcomplete, ?_⟩
    rintro ⟨t', frame', hframe', rfl⟩
    obtain ⟨w', hw'⟩ := hrest.pending hvalid hnotified hframe'
    rw [hcomplete.2] at hw'
    cases hw'

end Invariant

/-- A thread writes `0..10`, and another one parks to read `5..15`. -/
theorem comes_to_rest_reader : ∃ s : State ℕ ℕ ℕ, s.Resting true (slot 0) ∧
    ∃ q, Relation.TransGen (s.store.WaitsFor (slot 0)) (lockPtr false (slot 2)) q ∧
      s.store.Complete (slot 0) q ∧ ¬ s.Borrowed q := by
  set lock₀ : Call ℕ ℕ (InProgress ℕ) := .lock true (slot 0) (slot 1) ⟨0, 10⟩ 0 ⟨0, 0⟩ with hlock₀
  set lock₁ : Call ℕ ℕ (InProgress ℕ) := .lock false (slot 0) (slot 2) ⟨5, 15⟩ 0 ⟨1, 1⟩ with hlock₁
  have hreply₀ : (returned (lock₀.perform true) ⟨Store.init, []⟩).map (·.1) =
      some (.locked true) := by decide +kernel
  have hreply₁ : ((returned (lock₀.perform true) ⟨Store.init, []⟩).bind fun x =>
      returned (lock₁.perform true) ⟨x.2.store, []⟩).map (·.1) = some (.locked false) := by
    decide +kernel
  obtain ⟨x, hx, hx₁⟩ := Option.map_eq_some_iff.mp hreply₀
  rw [hx, Option.bind_some] at hreply₁
  obtain ⟨y, hy, hy₁⟩ := Option.map_eq_some_iff.mp hreply₁
  have hx := eq_ok_of_returned hx
  have hy := eq_ok_of_returned hy
  rw [hx₁] at hx
  rw [hy₁] at hy
  have run₀ : Run true (slot 0) [] (State.init : State ℕ ℕ ℕ) := .init
  have run₁ := run₀.step (.lockComplete 0 true ⟨0, 10⟩ 0 (slot 1) rfl rfl nofun nofun hx)
  have run₂ := run₁.step (.lockWait 1 false ⟨5, 15⟩ 0 (slot 2) rfl rfl nofun nofun hy)
  have run₃ := run₂.step (.loadFalse 1 rfl rfl rfl)
  set s : State ℕ ℕ ℕ := _
  have hrun : Run true (slot 0) _ s := run₃
  have hframe : ∀ t frame, s.frames t = some frame → frame.parking = true ∧
      frame.complete = false := by
    intro t frame hframe
    by_cases ht : t = 1
    · subst ht
      obtain rfl := Option.some.inj hframe
      exact ⟨rfl, rfl⟩
    · have hframe : Function.update (Function.update (fun _ => none) 1 (some (Frame.mk 1 false
          (lockPtr false (slot 2)) false))) 1 (some ⟨1, false, lockPtr false (slot 2), true⟩) t =
          some frame := hframe
      rw [Function.update_of_ne ht, Function.update_of_ne ht] at hframe
      cases hframe
  have hrest : s.Resting true (slot 0) := by
    intro s' hadvance
    cases hadvance with
    | stored p inProgress step =>
        cases step with
        | store hmutex => cases hmutex
    | unparked p inProgress step =>
        cases step with
        | unpark hmutex => cases hmutex
    | unlocked p result step =>
        cases step with
        | unlocked hmutex => cases hmutex
    | returns t p hwaits step =>
        cases step with
        | lockComplete _ _ _ _ _ _ hnone =>
            rw [hwaits] at hnone
            cases hnone
        | loadTrue _ hframe' hparking =>
            rw [(hframe t _ hframe').1] at hparking
            cases hparking
    | loads t hframe' hparking =>
        rw [(hframe t _ hframe').1] at hparking
        cases hparking
    | wakes t hframe' hparking htoken => cases htoken
  exact ⟨s, hrest, hrun.comes_to_rest.2 hrest 1 _ rfl⟩

end Interlock.Raw.Sync
