import Interlock.Raw.Frames

/-!
# What the threads can rely on

The steps under the mutex keep what is true of the frames.  From this follow the four promises of
the protocol: a lock call returns when its lock is complete, an unlock call cancels nothing, no flag
is used after its lock call has returned, and no thread is left parked.  As in `Sync`, ranges are
non-empty where debug assertions are off.
-/

namespace Interlock.Raw.Sync

open Interlock.Core Interlock.Memory Interlock.RbTree

variable {Index Priority Thread : Type} [LinearOrder Index] [LinearOrder Priority]
  [DecidableEq Thread]

section Invariant
variable {debug : Bool} {core : Addr} {s s' : State Index Priority Thread}
  {history : History Index Priority (InProgress Thread)} {trace : List (Label Thread)}
  {call : Unlocking Index Priority Thread} {t : Thread} {frame : Frame} {p : LockPtr}

/-! ## Calls of the core -/

omit [DecidableEq Thread] in
/-- A call under the mutex that leaves the locks of the frames alone, and makes nobody wait. -/
theorem Valid.of_phases {label : Label Thread}
    {history' : History Index Priority (InProgress Thread)} (h : Valid core trace s history)
    (hmutex : s.mutex = .free) (hmutex' : ∀ call, s'.mutex ≠ .held call)
    (hframes : s'.frames = s.frames) (htoken : s'.token = s.token) (hcalls : s.calls ≤ s'.calls)
    (hlabel : ∀ p value, label ≠ .unparked p value) (hafter : s'.store.After history')
    (hsame : ∀ t frame, s.frames t = some frame →
      phase frame.lock history' = phase frame.lock history)
    (hpending : ∀ p value, phase p history' = .pending value → phase p history = .pending value) :
    Valid core (label :: trace) s' history' := by
  have hcompleted : s.completed = [] := by rw [State.completed, hmutex]
  have hcompleted' : s'.completed = [] := by
    cases hm : s'.mutex with
    | free => rw [State.completed, hm]
    | poisoned => rw [State.completed, hm]
    | held call => exact absurd hm (hmutex' call)
  refine ⟨hafter, ⟨?_, ?_, ?_, ?_, ?_, ?_⟩, fun call hcall => absurd hcall (hmutex' call), ?_⟩
  · rw [hframes]
    exact h.framed.kind
  · rw [hframes]
    exact fun t frame hframe => (h.framed.flag_lt t frame hframe).trans_le hcalls
  · rw [hframes]
    exact h.framed.lock_inj
  · rw [hframes]
    exact h.framed.flag_inj
  · rw [hframes, hcompleted', ← hcompleted]
    intro t frame hframe
    rw [hsame t frame hframe]
    exact h.framed.status t frame hframe
  · rw [hframes, hcompleted', ← hcompleted]
    exact fun p value hphase hp => h.framed.waiting p value (hpending p value hphase) hp
  · intro p value hmem
    rcases List.mem_cons.mp hmem with heq | hmem
    · exact absurd heq.symm (hlabel p value)
    · obtain ⟨hlt, hframe⟩ := h.woken p value hmem
      rw [hframes, htoken]
      exact ⟨hlt.trans_le hcalls, hframe⟩

omit [DecidableEq Thread] in
theorem Valid.lockComplete {store : Store Index Priority (InProgress Thread)}
    {history' : History Index Priority (InProgress Thread)} (h : Valid core trace s history)
    (hmutex : s.mutex = .free) (hborrow : ¬ s.Borrowed p) (hafter : store.After history')
    (hphase : ∀ q, phase q history' = if p = q then .complete else phase q history) :
    Valid core (.lockReturned t p :: trace) { s with store, calls := s.calls + 1 } history' := by
  refine h.of_phases hmutex ?_ rfl rfl (Nat.le_succ _) nofun hafter ?_ ?_
  · intro call hcall
    have hcall : s.mutex = .held call := hcall
    rw [hmutex] at hcall
    cases hcall
  · intro t frame hframe
    rw [hphase, if_neg]
    rintro rfl
    exact hborrow ⟨t, frame, hframe, rfl⟩
  · intro q value hq
    rw [hphase] at hq
    split at hq
    · cases hq
    · exact hq

omit [DecidableEq Thread] in
theorem Valid.tryLock {store : Store Index Priority (InProgress Thread)}
    {history' : History Index Priority (InProgress Thread)} {isWrite success : Bool} {state : Addr}
    (h : Valid core trace s history) (hmutex : s.mutex = .free) (hafter : store.After history')
    (hphase : ∀ q, phase q history' =
      if tryLockPtr isWrite state = q ∧ success = true then .complete else phase q history) :
    Valid core (.silent :: trace) { s with store } history' := by
  refine h.of_phases hmutex ?_ rfl rfl le_rfl nofun hafter ?_ ?_
  · intro call hcall
    have hcall : s.mutex = .held call := hcall
    rw [hmutex] at hcall
    cases hcall
  · intro t frame hframe
    rw [hphase, if_neg]
    rintro ⟨hlock, -⟩
    have hkind := h.framed.kind t frame hframe
    rw [← hlock] at hkind
    cases isWrite <;> simp [tryLockPtr] at hkind
  · intro q value hq
    rw [hphase] at hq
    split at hq
    · cases hq
    · exact hq

theorem Valid.lockWait {store : Store Index Priority (InProgress Thread)}
    {history' : History Index Priority (InProgress Thread)} (h : Valid core trace s history)
    (hmutex : s.mutex = .free) (hframe : s.frames t = none) (hborrow : ¬ s.Borrowed p)
    (hkind : p.kind = .read ∨ p.kind = .write) (hafter : store.After history')
    (hphase : ∀ q, phase q history' = if p = q then .pending ⟨s.calls, t⟩ else phase q history) :
    Valid core (.silent :: trace)
      { s with
        store
        calls := s.calls + 1
        frames := Function.update s.frames t (some ⟨s.calls, false, p, false⟩) } history' := by
  have hcompleted : s.completed = [] := by rw [State.completed, hmutex]
  -- The new frame, or one that has been there
  have hcases : ∀ t' frame', Function.update s.frames t (some ⟨s.calls, false, p, false⟩) t' =
      some frame' → (t' = t ∧ frame' = ⟨s.calls, false, p, false⟩) ∨
        (t' ≠ t ∧ s.frames t' = some frame') := by
    intro t' frame' hframe'
    by_cases ht : t' = t
    · rw [ht, Function.update_self] at hframe'
      exact Or.inl ⟨ht, (Option.some.inj hframe').symm⟩
    · rw [Function.update_of_ne ht] at hframe'
      exact Or.inr ⟨ht, hframe'⟩
  have hne : ∀ t' frame', s.frames t' = some frame' → frame'.lock ≠ p :=
    fun t' frame' hframe' hlock => hborrow ⟨t', frame', hframe', hlock⟩
  have hlt := h.framed.flag_lt
  refine ⟨hafter, ⟨?_, ?_, ?_, ?_, ?_, ?_⟩, fun call hcall => ?_, ?_⟩
  · intro t' frame' hframe'
    rcases hcases t' frame' hframe' with ⟨-, rfl⟩ | ⟨-, hframe'⟩
    · exact hkind
    · exact h.framed.kind t' frame' hframe'
  · intro t' frame' hframe'
    rcases hcases t' frame' hframe' with ⟨-, rfl⟩ | ⟨-, hframe'⟩
    · exact Nat.lt_succ_self _
    · exact (hlt t' frame' hframe').trans (Nat.lt_succ_self _)
  · intro t₁ t₂ frame₁ frame₂ h₁ h₂ hlock
    rcases hcases t₁ frame₁ h₁ with ⟨rfl, rfl⟩ | ⟨-, h₁'⟩
    · rcases hcases t₂ frame₂ h₂ with ⟨rfl, rfl⟩ | ⟨-, h₂'⟩
      · rfl
      · exact absurd hlock.symm (hne t₂ frame₂ h₂')
    · rcases hcases t₂ frame₂ h₂ with ⟨rfl, rfl⟩ | ⟨-, h₂'⟩
      · exact absurd hlock (hne t₁ frame₁ h₁')
      · exact h.framed.lock_inj t₁ t₂ frame₁ frame₂ h₁' h₂' hlock
  · intro t₁ t₂ frame₁ frame₂ h₁ h₂ hflag
    rcases hcases t₁ frame₁ h₁ with ⟨rfl, rfl⟩ | ⟨-, h₁'⟩
    · rcases hcases t₂ frame₂ h₂ with ⟨rfl, rfl⟩ | ⟨-, h₂'⟩
      · rfl
      · exact absurd hflag.symm (hlt t₂ frame₂ h₂').ne
    · rcases hcases t₂ frame₂ h₂ with ⟨rfl, rfl⟩ | ⟨-, h₂'⟩
      · exact absurd hflag (hlt t₁ frame₁ h₁').ne
      · exact h.framed.flag_inj t₁ t₂ frame₁ frame₂ h₁' h₂' hflag
  · intro t' frame' hframe'
    rcases hcases t' frame' hframe' with ⟨rfl, rfl⟩ | ⟨-, hframe'⟩
    · refine Or.inl ⟨rfl, ?_, (hphase p).trans (if_pos rfl)⟩
      show p ∉ s.completed
      rw [hcompleted]
      exact List.not_mem_nil
    · rw [hphase, if_neg (Ne.symm (hne t' frame' hframe'))]
      exact h.framed.status t' frame' hframe'
  · intro q value hq hmem
    rw [hphase] at hq
    split at hq
    · next hpq =>
        cases hq
        exact ⟨_, Function.update_self .., rfl, hpq⟩
    · obtain ⟨frame', hframe', hflag, hlock⟩ := h.framed.waiting q value hq hmem
      have ht : value.waiter ≠ t := by
        intro heq
        rw [heq, hframe] at hframe'
        cases hframe'
      exact ⟨frame', (Function.update_of_ne ht ..).trans hframe', hflag, hlock⟩
  · have hcall : s.mutex = .held call := hcall
    rw [hmutex] at hcall
    cases hcall
  · intro q value hmem
    obtain ⟨hlt', hframes⟩ := h.woken q value (by simpa using hmem)
    refine ⟨hlt'.trans (Nat.lt_succ_self _), fun frame' hframe' hflag => ?_⟩
    rcases hcases _ frame' hframe' with ⟨-, rfl⟩ | ⟨-, hframe'⟩
    · exact absurd hflag.symm hlt'.ne
    · exact hframes frame' hframe' hflag

/-! ## The call under the mutex -/

omit [LinearOrder Index] [LinearOrder Priority] [DecidableEq Thread] in
/-- A lock whose lock call has returned is not pending. -/
theorem Framed.not_pending (h : Framed history s) (hcompleted : s.completed = [])
    (hborrow : ¬ s.Borrowed p) (value : InProgress Thread) : phase p history ≠ .pending value := by
  intro hphase
  have hp : p ∉ s.completed := by
    rw [hcompleted]
    exact List.not_mem_nil
  obtain ⟨frame, hframe, -, hlock⟩ := h.waiting p value hphase hp
  exact hborrow ⟨_, frame, hframe, hlock⟩

omit [DecidableEq Thread] in
theorem Valid.unlock {result : Option (InProgress Thread)}
    {w : World Index Priority (InProgress Thread)} (h : Valid core trace s history)
    (hmutex : s.mutex = .free) (hborrow : ¬ s.Borrowed p)
    (hrun : Call.perform debug (.unlock core p) ⟨s.store, []⟩ = .ok (.unlocked result) w) :
    Valid core (.silent :: trace)
      { s with mutex := .held ⟨p, result, w.store, (completions w.log).reverse, none, []⟩ }
      history := by
  have hcompleted : s.completed = [] := by rw [State.completed, hmutex]
  have haccepted : debug = false →
      (Call.unlock core p : Call Index Priority (InProgress Thread)).Accepted Nonempty :=
    fun _ => trivial
  obtain ⟨hemits, hafter⟩ := h.after.returned haccepted hrun
  have hrelease : ∀ event ∈ w.history, event.isRelease = true := by
    generalize w.history = events at hemits
    cases hemits with
    | unlock _ _ _ hrelease => exact hrelease
  obtain ⟨hevent, horderly⟩ := hafter.orderly
  obtain ⟨hnodup, hpending, hphase⟩ := release_completions hrelease horderly
  have hcompletions : completions w.history = completions w.log := completions_erase w.log
  -- The lock has not been waiting
  have hresult : result = none := by
    have hvalue : result = (phase p (w.history ++ history)).value := by
      generalize w.history ++ history = history' at hevent
      cases hevent
      rfl
    cases hp : phase p (w.history ++ history) with
    | free => rw [hvalue, hp, Phase.value]
    | complete => rw [hvalue, hp, Phase.value]
    | pending value =>
        rw [hphase] at hp
        split at hp
        · cases hp
        · exact absurd hp (h.framed.not_pending hcompleted hborrow value)
  have hwithin : Within s { s with
      mutex := .held ⟨p, result, w.store, (completions w.log).reverse, none, []⟩ } :=
    fun t frame hframe => ⟨frame, hframe, rfl, rfl, rfl⟩
  refine ⟨h.after, h.framed.of_within hwithin ?_ rfl hcompleted.symm, ?_, ?_⟩
  · exact fun t frame hframe _ => ⟨frame, hframe, rfl, rfl⟩
  · intro call hcall
    obtain rfl := Mutex.held.inj hcall
    refine ⟨hresult, ⟨w.history, hrelease, hresult ▸ hafter, fun q => ?_⟩, fun x hx => ?_, ?_, ?_,
      fun q value hunparking => ?_⟩
    · rw [List.map_reverse, List.mem_reverse, hcompletions]
      exact (or_iff_right List.not_mem_nil).symm
    · rw [List.mem_reverse, ← hcompletions] at hx
      exact ⟨hpending x hx, List.not_mem_nil⟩
    · rw [List.map_reverse, List.nodup_reverse, ← hcompletions]
      exact hnodup
    · exact fun t frame hframe hlock => hborrow ⟨t, frame, hframe, hlock⟩
    · cases hunparking
  · intro q value hmem
    exact h.woken q value (by simpa using hmem)

omit [DecidableEq Thread] in
/-- A store through a flag sets the flag of its frame, and of no other. -/
theorem storeFlag_eq_some {flag : Flag} {frames : Thread → Option Frame} {frame' : Frame}
    (h : storeFlag flag frames t = some frame') : ∃ frame, frames t = some frame ∧
      frame.flag = frame'.flag ∧ frame.lock = frame'.lock ∧ frame.parking = frame'.parking ∧
      (frame'.flag = flag → frame'.complete = true) ∧
      (frame'.flag ≠ flag → frame'.complete = frame.complete) ∧
      (frame.complete = true → frame'.complete = true) := by
  obtain ⟨frame, hframe, rfl⟩ := Option.map_eq_some_iff.mp h
  refine ⟨frame, hframe, ?_⟩
  by_cases hflag : frame.flag = flag
  · simp [hflag]
  · simp [hflag]

omit [DecidableEq Thread] in
theorem storeFlag_some (flag : Flag) {frames : Thread → Option Frame}
    (h : frames t = some frame) : ∃ frame', storeFlag flag frames t = some frame' ∧
      frame'.flag = frame.flag ∧ frame'.lock = frame.lock := by
  refine ⟨_, by rw [storeFlag, h, Option.map_some], ?_⟩
  split <;> exact ⟨rfl, rfl⟩

omit [DecidableEq Thread] in
/-- The frame of a lock for which a callback is still to come. -/
theorem Valid.callback_frame {value : InProgress Thread}
    {rest : List (LockPtr × InProgress Thread)} (h : Valid core trace s history)
    (hmutex : s.mutex = .held call) (hcallbacks : call.callbacks = (p, value) :: rest) :
    ∃ frame, s.frames value.waiter = some frame ∧ frame.flag = value.complete ∧ frame.lock = p := by
  obtain ⟨hphase, hmem⟩ :=
    (h.held call hmutex).callbacks (p, value) (by rw [hcallbacks]; exact List.mem_cons_self)
  have hcompleted : s.completed = call.completed := by rw [State.completed, hmutex]
  exact h.framed.waiting p value hphase (hcompleted ▸ hmem)

omit [DecidableEq Thread] in
theorem Valid.store {value : InProgress Thread} {rest : List (LockPtr × InProgress Thread)}
    (h : Valid core trace s history) (hmutex : s.mutex = .held call)
    (hcallbacks : call.callbacks = (p, value) :: rest) :
    Valid core (.stored p value :: trace)
      { s with
        mutex := .held { call with
          callbacks := rest, unparking := some (p, value), completed := p :: call.completed }
        frames := storeFlag value.complete s.frames } history := by
  obtain ⟨frame₀, hframe₀, hflag₀, hlock₀⟩ := h.callback_frame hmutex hcallbacks
  have hheld := h.held call hmutex
  have hcompleted : s.completed = call.completed := by rw [State.completed, hmutex]
  have hnodup := hheld.nodup
  rw [hcallbacks, List.map_cons, List.nodup_cons] at hnodup
  refine ⟨h.after, ⟨?_, ?_, ?_, ?_, ?_, ?_⟩, fun call' hcall' => ?_, ?_⟩
  · intro t frame' hframe'
    obtain ⟨frame, hframe, -, hlock, -⟩ := storeFlag_eq_some hframe'
    exact hlock ▸ h.framed.kind t frame hframe
  · intro t frame' hframe'
    obtain ⟨frame, hframe, hflag, -⟩ := storeFlag_eq_some hframe'
    exact hflag ▸ h.framed.flag_lt t frame hframe
  · intro t t' frame₁ frame₂ h₁ h₂ hlock
    obtain ⟨frame₁', h₁', -, hlock₁, -⟩ := storeFlag_eq_some h₁
    obtain ⟨frame₂', h₂', -, hlock₂, -⟩ := storeFlag_eq_some h₂
    exact h.framed.lock_inj t t' _ _ h₁' h₂' (by rw [hlock₁, hlock₂, hlock])
  · intro t t' frame₁ frame₂ h₁ h₂ hflag
    obtain ⟨frame₁', h₁', hflag₁, -⟩ := storeFlag_eq_some h₁
    obtain ⟨frame₂', h₂', hflag₂, -⟩ := storeFlag_eq_some h₂
    exact h.framed.flag_inj t t' _ _ h₁' h₂' (by rw [hflag₁, hflag₂, hflag])
  · -- Either it is the frame of the lock, or the flag and the lock are others
    intro t frame' hframe'
    obtain ⟨frame, hframe, hflag, hlock, -, hset, hsame, -⟩ := storeFlag_eq_some hframe'
    by_cases hvalue : frame'.flag = value.complete
    · have ht : t = value.waiter :=
        h.framed.flag_inj t _ frame frame₀ hframe hframe₀ (by rw [hflag, hvalue, hflag₀])
      rw [ht] at hframe
      obtain rfl := Option.some.inj (hframe.symm.trans hframe₀)
      refine Or.inr ⟨hset hvalue, Or.inl ?_⟩
      show frame'.lock ∈ p :: call.completed
      rw [← hlock, hlock₀]
      exact List.mem_cons_self
    · have hne : frame'.lock ≠ p := by
        intro heq
        have ht : t = value.waiter :=
          h.framed.lock_inj t _ frame frame₀ hframe hframe₀ (by rw [hlock, heq, hlock₀])
        rw [ht] at hframe
        obtain rfl := Option.some.inj (hframe.symm.trans hframe₀)
        exact hvalue (by rw [← hflag, hflag₀])
      have hmem : frame'.lock ∈ p :: call.completed ↔ frame'.lock ∈ s.completed := by
        rw [List.mem_cons, hcompleted]
        exact or_iff_right hne
      show (_ ∧ frame'.lock ∉ p :: call.completed ∧ _) ∨
        (_ ∧ (frame'.lock ∈ p :: call.completed ∨ _))
      rw [hmem, hsame hvalue, ← hflag, ← hlock]
      exact h.framed.status t frame hframe
  · intro q value' hphase hq
    have hq : q ∉ p :: call.completed := hq
    rw [List.mem_cons, not_or, ← hcompleted] at hq
    obtain ⟨frame, hframe, hflag, hlock⟩ := h.framed.waiting q value' hphase hq.2
    obtain ⟨frame', hframe', hflag', hlock'⟩ := storeFlag_some value.complete hframe
    exact ⟨frame', hframe', hflag'.trans hflag, hlock'.trans hlock⟩
  · obtain rfl := Mutex.held.inj hcall'
    obtain ⟨events, hrelease, hafter, hkeys⟩ := hheld.release
    refine ⟨hheld.result, ⟨events, hrelease, hafter, fun q => ?_⟩, fun x hx => ?_, hnodup.2, ?_, ?_⟩
    · rw [hkeys, hcallbacks, List.map_cons, List.mem_cons, List.mem_cons]
      tauto
    · obtain ⟨hphase, hmem⟩ :=
        hheld.callbacks x (by rw [hcallbacks]; exact List.mem_cons_of_mem _ hx)
      refine ⟨hphase, ?_⟩
      rw [List.mem_cons, not_or]
      have hrest : x.1 ∈ rest.map Prod.fst := List.mem_map_of_mem hx
      exact ⟨fun heq => hnodup.1 (heq ▸ hrest), hmem⟩
    · intro t frame' hframe'
      obtain ⟨frame, hframe, -, hlock, -⟩ := storeFlag_eq_some hframe'
      exact hlock ▸ hheld.lock t frame hframe
    · intro q value' heq
      cases heq
      refine ⟨hflag₀ ▸ h.framed.flag_lt _ frame₀ hframe₀, fun frame' hframe' hflag => ?_⟩
      obtain ⟨-, -, -, -, -, hset, -⟩ := storeFlag_eq_some hframe'
      exact hset hflag
  · intro q value' hmem
    obtain ⟨hlt, hframes⟩ := h.woken q value' (by simpa using hmem)
    refine ⟨hlt, fun frame' hframe' hflag' => ?_⟩
    obtain ⟨frame, hframe, hflag, -, hparking, -, -, hkeep⟩ := storeFlag_eq_some hframe'
    obtain ⟨hdone, hparks⟩ := hframes frame hframe (hflag.trans hflag')
    exact ⟨hkeep hdone, fun h => hparks (hparking.trans h)⟩

theorem Valid.unpark {value : InProgress Thread} (h : Valid core trace s history)
    (hmutex : s.mutex = .held call) (hunparking : call.unparking = some (p, value)) :
    Valid core (.unparked p value :: trace)
      { s with
        mutex := .held { call with unparking := none }
        token := Function.update s.token value.waiter true } history := by
  have hheld := h.held call hmutex
  have hcompleted : s.completed = call.completed := by rw [State.completed, hmutex]
  have hwithin : Within s { s with
      mutex := .held { call with unparking := none }
      token := Function.update s.token value.waiter true } :=
    fun t frame hframe => ⟨frame, hframe, rfl, rfl, rfl⟩
  refine ⟨h.after, h.framed.of_within hwithin ?_ rfl hcompleted.symm, fun call' hcall' => ?_, ?_⟩
  · exact fun t frame hframe _ => ⟨frame, hframe, rfl, rfl⟩
  · obtain rfl := Mutex.held.inj hcall'
    refine ⟨hheld.result, hheld.release, hheld.callbacks, hheld.nodup, hheld.lock, ?_⟩
    intro q value' hunparking'
    cases hunparking'
  · intro q value' hmem
    have htoken : ∀ t, s.token t = true → Function.update s.token value.waiter true t = true := by
      intro t ht
      by_cases heq : t = value.waiter
      · rw [heq, Function.update_self]
      · rwa [Function.update_of_ne heq]
    rcases List.mem_cons.mp hmem with heq | hmem
    · cases heq
      obtain ⟨hlt, hframes⟩ := hheld.unparking p value hunparking
      exact ⟨hlt, fun frame hframe hflag =>
        ⟨hframes frame hframe hflag, fun _ => Function.update_self ..⟩⟩
    · obtain ⟨hlt, hframes⟩ := h.woken q value' hmem
      refine ⟨hlt, fun frame hframe hflag => ?_⟩
      obtain ⟨hdone, hparks⟩ := hframes frame hframe hflag
      exact ⟨hdone, fun hparking => htoken _ (hparks hparking)⟩

omit [DecidableEq Thread] in
/-- The phases after the call under the mutex, when all its callbacks have been called. -/
theorem Held.phases (hheld : Held core history s call) (hcallbacks : call.callbacks = []) :
    ∃ history', call.store.After history' ∧ ∀ q, phase q history' =
      if q = call.lock then .free
      else if q ∈ call.completed then .complete else phase q history := by
  obtain ⟨events, hrelease, hafter, hkeys⟩ := hheld.release
  obtain ⟨-, horderly⟩ := hafter.orderly
  obtain ⟨-, -, hphase⟩ := release_completions hrelease horderly
  refine ⟨_, hafter, fun q => ?_⟩
  have hmem : q ∈ (completions events).map Prod.fst ↔ q ∈ call.completed := by
    rw [hkeys, hcallbacks]
    exact or_iff_left List.not_mem_nil
  by_cases hq : q = call.lock
  · rw [if_pos hq]
    exact if_pos hq.symm
  · have hunlock : phase q (.returned (.unlock core call.lock) (.unlocked none) () ::
        (events ++ history)) = phase q (events ++ history) := if_neg (Ne.symm hq)
    rw [if_neg hq, hunlock, hphase]
    simp only [hmem]

omit [DecidableEq Thread] in
theorem Valid.unlocked (h : Valid core trace s history) (hmutex : s.mutex = .held call)
    (hcallbacks : call.callbacks = []) : ∃ history',
    Valid core (.unlocked call.lock call.result :: trace)
      { s with
        store := call.store
        mutex := if debug && call.result.isSome then .poisoned else .free } history' := by
  have hheld := h.held call hmutex
  have hcompleted : s.completed = call.completed := by rw [State.completed, hmutex]
  obtain ⟨history', hafter, hphase⟩ := hheld.phases hcallbacks
  have hfree : (if debug && call.result.isSome then .poisoned else .free :
      Mutex Index Priority Thread) = .free := by
    rw [hheld.result]
    simp
  rw [hfree]
  refine ⟨history', hafter, ⟨h.framed.kind, h.framed.flag_lt, h.framed.lock_inj,
    h.framed.flag_inj, ?_, ?_⟩, fun call' hcall' => ?_, ?_⟩
  · intro t frame hframe
    rw [hphase, if_neg (hheld.lock t frame hframe)]
    rcases h.framed.status t frame hframe with ⟨hnot, hmem, hpending⟩ | ⟨hdone, hmem⟩
    · rw [hcompleted] at hmem
      exact Or.inl ⟨hnot, List.not_mem_nil, (if_neg hmem).trans hpending⟩
    · rw [hcompleted] at hmem
      refine Or.inr ⟨hdone, Or.inr ?_⟩
      split
      · rfl
      · next hnot => exact hmem.resolve_left hnot
  · intro q value hq _
    rw [hphase] at hq
    split at hq
    · cases hq
    · split at hq
      · cases hq
      · next hmem => exact h.framed.waiting q value hq (hcompleted ▸ hmem)
  · cases hcall'
  · intro q value hmem
    exact h.woken q value (by simpa using hmem)

/-! ## Runs -/

theorem Step.valid {label : Label Thread} (h : Valid core trace s history)
    (step : Step debug core s label s') : ∃ history', Valid core (label :: trace) s' history' := by
  cases step with
  | lockComplete t isWrite range priority state hmutex hframe hborrow haccepted hrun =>
      obtain ⟨history', hafter, hphase⟩ := lock_phase h.after haccepted hrun
      exact ⟨history', h.lockComplete hmutex hborrow hafter hphase⟩
  | lockWait t isWrite range priority state hmutex hframe hborrow haccepted hrun =>
      obtain ⟨history', hafter, hphase⟩ := lock_phase h.after haccepted hrun
      exact ⟨history', h.lockWait hmutex hframe hborrow (lockPtr_kind isWrite state) hafter hphase⟩
  | loadTrue t hframe hparking hcomplete => exact ⟨history, h.loadTrue hframe hcomplete⟩
  | loadFalse t hframe hparking hcomplete => exact ⟨history, h.loadFalse hframe hcomplete⟩
  | park t hframe hparking htoken =>
      exact ⟨history, h.park hframe _ fun t' ht => Function.update_of_ne ht ..⟩
  | parkSpurious t hframe hparking => exact ⟨history, h.park hframe _ fun _ _ => rfl⟩
  | tryLock t isWrite range state hmutex hframe haccepted hrun =>
      obtain ⟨history', hafter, hphase⟩ := tryLock_phase h.after haccepted hrun
      exact ⟨history', h.tryLock hmutex hafter hphase⟩
  | unlock t p hmutex hframe hborrow hrun => exact ⟨history, h.unlock hmutex hborrow hrun⟩
  | store hmutex hunparking hcallbacks => exact ⟨history, h.store hmutex hcallbacks⟩
  | unpark hmutex hunparking => exact ⟨history, h.unpark hmutex hunparking⟩
  | unlocked hmutex hunparking hcallbacks => exact h.unlocked hmutex hcallbacks
  | panicked t call hmutex hframe haccepted hrun =>
      obtain ⟨hstore, -⟩ := h.after.panicked haccepted hrun
      refine ⟨history, h.of_phases hmutex nofun rfl rfl le_rfl nofun (hstore ▸ h.after) ?_ ?_⟩
      · exact fun _ _ _ => rfl
      · exact fun _ _ => id
  | otherUnpark t =>
      refine ⟨history, h.other _ fun t' frame hframe htoken => ?_⟩
      by_cases ht : t' = t
      · rw [ht, Function.update_self]
      · rwa [Function.update_of_ne ht]
  | otherPark t hframe =>
      refine ⟨history, h.other _ fun t' frame hframe' htoken => ?_⟩
      have ht : t' ≠ t := by
        rintro rfl
        rw [hframe] at hframe'
        cases hframe'
      rwa [Function.update_of_ne ht]

theorem Run.valid (run : Run debug core trace s) : ∃ history, Valid core trace s history := by
  induction run with
  | init =>
      refine ⟨[], Store.After.init, ⟨nofun, nofun, nofun, nofun, nofun, ?_⟩, nofun, ?_⟩
      · rintro p value ⟨⟩
      · exact fun p value hmem => absurd hmem List.not_mem_nil
  | step _ step ih =>
      obtain ⟨history, h⟩ := ih
      exact step.valid h

end Invariant

/-! ## The blocking protocol -/

section Protocol
variable {debug : Bool} {core : Addr} {s s' : State Index Priority Thread}
  {trace : List (Label Thread)}

/-- The lock is complete in the core, or is being completed by the call under the mutex. -/
def State.Done (s : State Index Priority Thread) (p : LockPtr) : Prop :=
  (s.store.InPhase p .complete ∧ ∀ call, s.mutex = .held call → call.lock ≠ p) ∨ p ∈ s.completed

/-- What the threads can rely on. -/
structure State.Protocol (debug : Bool) (core : Addr) (trace : List (Label Thread))
    (s : State Index Priority Thread) : Prop where
  returns : ∀ t p s', Step debug core s (.lockReturned t p) s' → s'.Done p
  /-- The `debug_assert` of `unlock_*` does not fail. -/
  unlocks : ∀ p result s', Step debug core s (.unlocked p result) s' →
    result = none ∧ s'.mutex = .free
  /-- The flag belongs to a lock call that has not returned. -/
  stores : ∀ p value s', Step debug core s (.stored p value) s' →
    ∃ frame, s.frames value.waiter = some frame ∧ frame.flag = value.complete ∧ frame.lock = p
  /-- A thread that has been unparked for its lock call is not blocked in `park`. -/
  parks : ∀ p value frame, .unparked p value ∈ trace → s.frames value.waiter = some frame →
    frame.flag = value.complete → frame.parking = true → s.token value.waiter = true

theorem Run.blocking_protocol (run : Run debug core trace s) : s.Protocol debug core trace := by
  obtain ⟨history, h⟩ := run.valid
  refine ⟨fun t p s' step => ?_, fun p result s' step => ?_, fun p value s' step => ?_, ?_⟩
  · cases step with
    | lockComplete t isWrite range priority state hmutex hframe hborrow haccepted hrun =>
        obtain ⟨history', hafter, hphase⟩ := lock_phase h.after haccepted hrun
        have hcomplete := hafter.inPhase (lockPtr isWrite state)
        rw [hphase, if_pos rfl] at hcomplete
        refine Or.inl ⟨hcomplete, fun call hcall => ?_⟩
        have hcall : s.mutex = .held call := hcall
        rw [hmutex] at hcall
        cases hcall
    | loadTrue t hframe hparking hcomplete =>
        rcases h.framed.status t _ hframe with ⟨hnot, -⟩ | ⟨-, hmem | hphase⟩
        · rw [hcomplete] at hnot
          cases hnot
        · exact Or.inr hmem
        · have hinPhase := h.after.inPhase
          refine Or.inl ⟨hphase ▸ hinPhase _, fun call hcall => ?_⟩
          exact Ne.symm ((h.held call hcall).lock t _ hframe)
  · cases step with
    | unlocked hmutex hunparking hcallbacks =>
        have hresult := (h.held _ hmutex).result
        refine ⟨hresult, ?_⟩
        rw [hresult]
        simp
  · cases step with
    | store hmutex hunparking hcallbacks => exact h.callback_frame hmutex hcallbacks
  · intro p value frame hmem hframe hflag hparking
    exact (((h.woken p value hmem).2 frame hframe hflag).2 hparking)

/-! ### A run -/

/-- A thread writes `0..10`, and another one waits for it and reads `5..15`.  When the first one
unlocks, the second one returns between the store and the unpark. -/
theorem blocking_protocol_early : ∃ s : State ℕ ℕ ℕ,
    s.Protocol true (slot 0)
      [.unparked (lockPtr false (slot 2)) ⟨1, 1⟩, .lockReturned 1 (lockPtr false (slot 2)),
        .stored (lockPtr false (slot 2)) ⟨1, 1⟩, .silent, .silent,
        .lockReturned 0 (lockPtr true (slot 1))] ∧ s.token 1 = true := by
  set lock₀ : Call ℕ ℕ (InProgress ℕ) := .lock true (slot 0) (slot 1) ⟨0, 10⟩ 0 ⟨0, 0⟩ with hlock₀
  set lock₁ : Call ℕ ℕ (InProgress ℕ) := .lock false (slot 0) (slot 2) ⟨5, 15⟩ 0 ⟨1, 1⟩ with hlock₁
  set unlock₀ : Call ℕ ℕ (InProgress ℕ) := .unlock (slot 0) (lockPtr true (slot 1)) with hunlock₀
  have hreply₀ : (returned (lock₀.perform true) ⟨Store.init, []⟩).map (·.1) =
      some (.locked true) := by decide +kernel
  have hreply₁ : ((returned (lock₀.perform true) ⟨Store.init, []⟩).bind fun x =>
      returned (lock₁.perform true) ⟨x.2.store, []⟩).map (·.1) = some (.locked false) := by
    decide +kernel
  have hreply₂ : ((returned (lock₀.perform true) ⟨Store.init, []⟩).bind fun x =>
      (returned (lock₁.perform true) ⟨x.2.store, []⟩).bind fun y =>
        returned (unlock₀.perform true) ⟨y.2.store, []⟩).map (·.1) =
      some (.unlocked none) := by decide +kernel
  have hcallbacks : ((returned (lock₀.perform true) ⟨Store.init, []⟩).bind fun x =>
      (returned (lock₁.perform true) ⟨x.2.store, []⟩).bind fun y =>
        returned (unlock₀.perform true) ⟨y.2.store, []⟩).map
        (fun z => (completions z.2.log).reverse) = some [(lockPtr false (slot 2), ⟨1, 1⟩)] := by
    decide +kernel
  obtain ⟨x, hx, hx₁⟩ := Option.map_eq_some_iff.mp hreply₀
  rw [hx, Option.bind_some] at hreply₁ hreply₂ hcallbacks
  obtain ⟨y, hy, hy₁⟩ := Option.map_eq_some_iff.mp hreply₁
  rw [hy, Option.bind_some] at hreply₂ hcallbacks
  obtain ⟨z, hz, hz₁⟩ := Option.map_eq_some_iff.mp hreply₂
  rw [hz, Option.map_some, Option.some_inj] at hcallbacks
  have hx := eq_ok_of_returned hx
  have hy := eq_ok_of_returned hy
  have hz := eq_ok_of_returned hz
  rw [hx₁] at hx
  rw [hy₁] at hy
  rw [hz₁] at hz
  have run₀ : Run true (slot 0) [] (State.init : State ℕ ℕ ℕ) := .init
  have run₁ := run₀.step (.lockComplete 0 true ⟨0, 10⟩ 0 (slot 1) rfl rfl nofun nofun hx)
  have run₂ := run₁.step (.lockWait 1 false ⟨5, 15⟩ 0 (slot 2) rfl rfl nofun nofun hy)
  have hborrow : ∀ t frame, Function.update (fun _ => none) 1
      (some (Frame.mk 1 false (lockPtr false (slot 2)) false)) t = some frame →
      frame.lock ≠ lockPtr true (slot 1) := by
    intro t frame hframe
    by_cases ht : t = 1
    · rw [ht, Function.update_self] at hframe
      obtain rfl := Option.some.inj hframe
      decide
    · rw [Function.update_of_ne ht] at hframe
      cases hframe
  have run₃ := run₂.step (.unlock 0 (lockPtr true (slot 1)) rfl rfl
    (by rintro ⟨t, frame, hframe, hlock⟩; exact hborrow t frame hframe hlock) hz)
  have run₄ := run₃.step (.store rfl rfl hcallbacks)
  have run₅ := run₄.step (.loadTrue 1 rfl rfl rfl)
  have run₆ := run₅.step (.unpark rfl rfl)
  exact ⟨_, run₆.blocking_protocol, rfl⟩

end Protocol

end Interlock.Raw.Sync
