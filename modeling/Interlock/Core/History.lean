import Interlock.Core.System

/-!
# The events of a run

Between the calls of a run everything is in order.  This file is about what happens in between:
the events that an operation leaves in the log, and what the tables look like at each of them.  A
release goes from one waiter to the next, so what holds at every event of it is shown by an
induction on the waiters that are still to be visited.
-/

namespace Interlock.Core

open Memory RbTree

variable {Index Priority InProgress : Type} [LinearOrder Index] [LinearOrder Priority]

section Logs
variable {Mem : Type} {P Q : Event Index Priority InProgress Mem →
  List (Event Index Priority InProgress Mem) → Prop}

omit [LinearOrder Index] [LinearOrder Priority]

theorem Logged.of_append {pre post : List (Event Index Priority InProgress Mem)}
    {event : Event Index Priority InProgress Mem} (h : Logged P (pre ++ event :: post)) :
    P event post := by
  induction pre with
  | nil => exact h.1
  | cons e pre ih => exact ih h.2

end Logs

namespace System
variable {misuse strict : Prop} {accepts : LockPtr → Range Index → Prop}
  {σ σ' : System Index Priority InProgress} {core : Addr} {p q : LockPtr}
  {tables : Tables Index Priority InProgress} {l : Lock Index} {range : Range Index}
  {x : LockPtr × Pending Index Priority InProgress}
  {visits : List (LockPtr × Pending Index Priority InProgress)}

/-! ## During a release -/

/-- The tables while `core` releases `p` and has still to try `visits`. -/
structure Releasing (strict : Prop) (core : Addr) (p : LockPtr)
    (visits : List (LockPtr × Pending Index Priority InProgress))
    (tables : Tables Index Priority InProgress) : Prop where
  table : (tables core).Releasing strict p visits
  others : ∀ c, c ≠ core → (tables c).Quiet strict
  apart : ∀ c c' p l l', (tables c).locks p = some l → (tables c').locks p = some l' → c = c'

theorem Releasing.sound (h : Releasing strict core p visits tables) (c : Addr) :
    (tables c).Sound strict := by
  by_cases hc : c = core
  · rw [hc]
    exact h.table.toSound
  · exact (h.others c hc).toSound

omit [LinearOrder Index] [LinearOrder Priority] in
/-- Every lock stays in its table. -/
theorem apart_update {s' : Table Index Priority InProgress}
    (h : ∀ c c' p l l', (tables c).locks p = some l → (tables c').locks p = some l' → c = c')
    (hs' : ∀ q, s'.requestOf q = (tables core).requestOf q) (c c' : Addr) (q : LockPtr)
    (l l' : Lock Index) (hl : (Function.update tables core s' c).locks q = some l)
    (hl' : (Function.update tables core s' c').locks q = some l') : c = c' := by
  have hbefore : ∀ c l, (Function.update tables core s' c).locks q = some l →
      ∃ m, (tables c).locks q = some m := by
    intro c l hl
    by_cases hc : c = core
    · subst hc
      rw [Function.update_self] at hl
      have hq := hs' q
      rw [Table.requestOf, Table.requestOf, hl] at hq
      cases hm : (tables c).locks q with
      | none => simp [hm] at hq
      | some m => exact ⟨m, rfl⟩
    · exact ⟨l, by rwa [Function.update_of_ne hc] at hl⟩
  obtain ⟨m, hm⟩ := hbefore c l hl
  obtain ⟨m', hm'⟩ := hbefore c' l' hl'
  exact h c c' q m m' hm hm'

theorem Releasing.init (h : Good strict σ.tables) (hl : (σ.tables core).locks p = some l) :
    Releasing strict core p (((σ.tables core).dequeue p).waitersOf p)
      (σ.put core ((σ.tables core).dequeue p)).tables := by
  refine ⟨?_, fun c hc => ?_, apart_update h.apart fun q => rfl⟩
  · rw [put_tables, Function.update_self]
    exact (h.quiet core).releasing hl
  · rw [put_tables, Function.update_of_ne hc]
    exact h.quiet c

theorem Releasing.visit (h : Releasing strict core p (x :: visits) σ.tables) :
    Releasing strict core p visits (σ.visit core p x).tables := by
  rw [visit_tables]
  refine ⟨?_, fun c hc => ?_, apart_update h.apart fun q => ?_⟩
  · rw [Function.update_self]
    exact h.table.visit
  · rw [Function.update_of_ne hc]
    exact h.others c hc
  · simp [Table.visit_eq]

/-- The rule for releases: what one round preserves holds at the end. -/
theorem release_induction
    {motive : List (LockPtr × Pending Index Priority InProgress) →
      System Index Priority InProgress → Prop}
    (hvisit : ∀ x visits σ, Releasing strict core p (x :: visits) σ.tables →
      motive (x :: visits) σ → motive visits (σ.visit core p x))
    (h : Releasing strict core p visits σ.tables) (hstart : motive visits σ) :
    motive [] (σ.release core p visits) := by
  induction visits generalizing σ with
  | nil => exact hstart
  | cons x visits ih => exact ih h.visit (hvisit x visits σ h hstart)

/-- The release of a lock that stands in nobody's way. -/
theorem release_neutral {s : Table Index Priority InProgress} (hstrict : strict)
    (h : Releasing strict core p visits σ.tables) (hsame : s.SameOff (σ.tables core) p)
    (hblocked : ∀ x ∈ visits, ∃ r, r ≠ p ∧ s.BlockedBy x r) :
    s.SameOff ((σ.release core p visits).tables core) p ∧
      completions (σ.release core p visits).log = completions σ.log := by
  refine (release_induction (motive := fun visits σ' =>
    (∀ x ∈ visits, ∃ r, r ≠ p ∧ s.BlockedBy x r) ∧ s.SameOff (σ'.tables core) p ∧
      completions σ'.log = completions σ.log) ?_ h ⟨hblocked, hsame, rfl⟩).2
  rintro x visits σ' hrel ⟨hblocked, hsame, hlog⟩
  obtain ⟨r, hrp, hr⟩ := hblocked x (by simp)
  obtain ⟨hfirst, hvisit⟩ := hsame.visit hrel.table hstrict hr hrp
  refine ⟨fun y hy => hblocked y (List.mem_cons_of_mem _ hy), ?_, ?_⟩
  · rwa [visit_tables, Function.update_self]
  · rw [System.visit, hfirst]
    exact hlog

/-- The release of a lock that has just been added. -/
theorem unlock_neutral {s : Table Index Priority InProgress} {held : Option Index}
    (hgood : Good True σ.tables) (hl : (σ.tables core).locks p = some l) (hs : s.Quiet True)
    (hp : s.locks p = none) (hdequeue : (σ.tables core).dequeue p = s.add p range held) :
    (σ.unlock core p).tables = Function.update σ.tables core s ∧
      completions (σ.unlock core p).log = completions σ.log := by
  set σ₀ := σ.put core ((σ.tables core).dequeue p) with hσ₀
  have htable : σ₀.tables core = s.add p range held := by
    rw [hσ₀, put_tables, Function.update_self, hdequeue]
  have hrel : Releasing True core p ((σ₀.tables core).waitersOf p) σ₀.tables := by
    rw [htable, ← hdequeue]
    exact Releasing.init hgood hl
  have hsame : (s.add p range held).SameOff (σ₀.tables core) p :=
    ⟨fun q _ => by rw [htable], by rw [htable], by rw [htable]⟩
  have hblocked : ∀ x ∈ (σ₀.tables core).waitersOf p,
      ∃ r, r ≠ p ∧ (s.add p range held).BlockedBy x r := by
    intro x hx
    rw [htable] at hx
    have hself : (s.add p range held).locks p = some ⟨range.start, range.stop, held⟩ := by
      rw [Table.add_locks, if_pos rfl]
    have hmem : x ∈ s.queue := ((Table.mem_waitersOf hself).mp hx).1
    obtain ⟨r, hr⟩ := hs.blocked trivial x hmem
    obtain ⟨lr, -, hlr, -⟩ := id hr
    exact ⟨r, fun heq => (by simp [heq, hp] at hlr), hr.add hp⟩
  obtain ⟨hfinal, hlog⟩ := release_neutral trivial hrel hsame hblocked
  refine ⟨?_, hlog⟩
  rw [System.unlock, put_tables, hfinal.forget hs.toSound hp, release_tables, put_tables,
    Function.update_idem, Function.update_idem]

/-! ## Requests -/

/-- The log tells the ranges of the live locks. -/
def Requests (σ : System Index Priority InProgress) : Prop :=
  ∀ p r, requested p σ.log = some r ↔ ∃ c, (σ.tables c).requestOf p = some r

omit [LinearOrder Index] [LinearOrder Priority] in
theorem Requests.congr (h : σ.Requests) (hlog : ∀ p, requested p σ'.log = requested p σ.log)
    (htables : ∀ c p, (σ'.tables c).requestOf p = (σ.tables c).requestOf p) : σ'.Requests := by
  intro p r
  simp only [hlog, htables]
  exact h p r

omit [LinearOrder Index] [LinearOrder Priority] in
theorem requestOf_put {s' : Table Index Priority InProgress}
    (hs' : ∀ q, s'.requestOf q = (σ.tables core).requestOf q) (c : Addr) (q : LockPtr) :
    ((σ.put core s').tables c).requestOf q = (σ.tables c).requestOf q := by
  by_cases hc : c = core
  · subst hc
    rw [put_tables, Function.update_self, hs']
  · rw [put_tables, Function.update_of_ne hc]

theorem requested_resumeAt (q : LockPtr) (conflict : Option Index) :
    requested q (σ.resumeAt core x conflict).log = requested q σ.log := by
  unfold resumeAt
  split <;> rfl

theorem requested_visit (q : LockPtr) :
    requested q (σ.visit core p x).log = requested q σ.log :=
  requested_resumeAt q _

theorem requestOf_visit (c : Addr) (q : LockPtr) :
    ((σ.visit core p x).tables c).requestOf q = (σ.tables c).requestOf q := by
  rw [visit_tables]
  exact requestOf_put (fun q => by simp [Table.visit_eq]) c q

theorem Requests.visit (h : σ.Requests) : (σ.visit core p x).Requests :=
  h.congr requested_visit requestOf_visit

theorem requested_release (σ : System Index Priority InProgress) (q : LockPtr) :
    requested q (σ.release core p visits).log = requested q σ.log := by
  induction visits generalizing σ with
  | nil => rfl
  | cons x visits ih => exact (ih _).trans (requested_visit q)

omit [LinearOrder Index] [LinearOrder Priority] in
/-- A call claims `p`. -/
theorem Requests.claim (core : Addr) {s' : Table Index Priority InProgress} (h : σ.Requests)
    (hp : ¬ InUse σ.tables p) (htables : σ'.tables = Function.update σ.tables core s')
    (hself : s'.requestOf p = some range)
    (hother : ∀ q, q ≠ p → s'.requestOf q = (σ.tables core).requestOf q)
    (hlog : ∀ q, requested q σ'.log = if p = q then some range else requested q σ.log) :
    σ'.Requests := by
  intro q r
  rw [hlog, htables]
  by_cases hqp : q = p
  · subst hqp
    rw [if_pos rfl]
    constructor
    · intro hr
      exact ⟨core, by rw [Function.update_self, hself, hr]⟩
    · rintro ⟨c, hc⟩
      by_cases hcore : c = core
      · subst hcore
        rwa [Function.update_self, hself] at hc
      · rw [Function.update_of_ne hcore, Table.requestOf, locks_eq_none_of_not_inUse hp] at hc
        cases hc
  · rw [if_neg (Ne.symm hqp), h q r]
    refine exists_congr fun c => ?_
    by_cases hcore : c = core
    · subst hcore
      rw [Function.update_self, hother q hqp]
    · rw [Function.update_of_ne hcore]

omit [LinearOrder Index] [LinearOrder Priority] in
/-- A call gives up `p`. -/
theorem Requests.release (core : Addr) {s' : Table Index Priority InProgress} (h : σ.Requests)
    (hp : ∀ c, c ≠ core → (σ.tables c).locks p = none)
    (htables : σ'.tables = Function.update σ.tables core s') (hself : s'.locks p = none)
    (hother : ∀ q, q ≠ p → s'.requestOf q = (σ.tables core).requestOf q)
    (hlog : ∀ q, requested q σ'.log = if p = q then none else requested q σ.log) :
    σ'.Requests := by
  intro q r
  rw [hlog, htables]
  by_cases hqp : q = p
  · subst hqp
    rw [if_pos rfl]
    refine iff_of_false (by simp) ?_
    rintro ⟨c, hc⟩
    by_cases hcore : c = core
    · subst hcore
      simp [Table.requestOf, hself] at hc
    · simp [Function.update_of_ne hcore, Table.requestOf, hp c hcore] at hc
  · rw [if_neg (Ne.symm hqp), h q r]
    refine exists_congr fun c => ?_
    by_cases hcore : c = core
    · subst hcore
      rw [Function.update_self, hother q hqp]
    · rw [Function.update_of_ne hcore]

theorem Step.requests (hgood : Good strict σ.tables) (h : σ.Requests)
    (step : Step misuse accepts σ σ') : σ'.Requests := by
  have hevent : ∀ (conflict : Option Index) q p (inProgress : InProgress)
      (log : List (Event Index Priority InProgress (Tables Index Priority InProgress))),
      requested p (lockEvent conflict q inProgress :: log) = requested p log := by
    intro conflict q p inProgress log
    cases conflict <;> rfl
  cases step with
  | @lock isWrite core state range priority inProgress hrange hfresh =>
      refine h.claim core hfresh rfl Table.lock_requestOf_self (fun q hne => ?_) fun q => ?_
      · show (((σ.tables core).lock (lockPtr isWrite state) range priority inProgress).locks q).map
          Lock.request = (σ.tables core).requestOf q
        rw [Table.lock_locks_of_ne hne, Table.requestOf]
      · exact congrArg _ (hevent _ _ q _ σ.log)
  | @tryLock isWrite core state range hrange hfresh =>
      cases hfirst : (σ.tables core).firstConflict (tryLockPtr isWrite state) range with
      | some i =>
          refine h.congr (fun q => rfl) (requestOf_put fun q => ?_)
          rw [Table.tryLock, hfirst]
      | none =>
          refine h.claim core (hfresh hfirst) rfl (Table.tryLock_requestOf_self hfirst)
            (fun q hne => ?_) fun q => rfl
          rw [Table.requestOf, Table.tryLock_locks_of_ne hne, Table.requestOf]
  | @unlock core p l hl =>
      refine h.release core (p := p) (fun c hc => ?_) (unlock_tables σ)
        Table.unlock_locks_self (fun q hne => Table.unlock_requestOf hne) fun q => ?_
      · by_contra hsome
        obtain ⟨l', hl'⟩ := Option.ne_none_iff_exists'.mp hsome
        exact hc (hgood.apart c core p l' l hl' hl)
      · exact congrArg _ (requested_release (σ.put core _) q)
  | inspect isWrite core state write hl => exact h.congr (fun q => rfl) (requestOf_put fun q => rfl)
  | lockPanic hmisuse isWrite core state range priority inProgress hused =>
      exact h.congr (fun q => hevent _ _ q _ σ.log) fun _ _ => rfl
  | panic hmisuse call hmisused => exact h.congr (fun q => rfl) fun _ _ => rfl

theorem Run.requests (haccepts : ∀ p range, accepts p range → Table.Admissible strict p range)
    (run : Run misuse accepts σ) : σ.Requests := by
  induction run with
  | init => exact fun p r => by simp [System.init, requested, Table.requestOf, Table.empty]
  | step run step ih => exact step.requests (run.good haccepts) ih

/-! ## Runs in small steps -/

/-- The rule for runs.  An unlock call begins, goes from waiter to waiter, and ends, with the value
that it has found at its beginning; `hstep` is told what comes of it. -/
theorem Run.induction (haccepts : ∀ p range, accepts p range → Table.Admissible strict p range)
    (motive : System Index Priority InProgress → Prop)
    (during : Addr → LockPtr → Option InProgress →
      List (LockPtr × Pending Index Priority InProgress) →
      System Index Priority InProgress → Prop)
    (hinit : motive System.init)
    (hbegin : ∀ σ core p l, Run misuse accepts σ → Good strict σ.tables → motive σ →
      (σ.tables core).locks p = some l →
      during core p ((σ.tables core).waiting p) (((σ.tables core).dequeue p).waitersOf p)
        (σ.put core ((σ.tables core).dequeue p)))
    (hvisit : ∀ σ core p value x visits, Releasing strict core p (x :: visits) σ.tables →
      during core p value (x :: visits) σ → during core p value visits (σ.visit core p x))
    (hend : ∀ σ core p value, Releasing strict core p [] σ.tables → during core p value [] σ →
      motive ((σ.put core ((σ.tables core).forget p)).returned (.unlock core p) (.unlocked value)))
    (hstep : ∀ σ σ', Good strict σ.tables → motive σ → Step misuse accepts σ σ' →
      (∀ core p l, (σ.tables core).locks p = some l → motive ((σ.unlock core p).returned
        (.unlock core p) (.unlocked ((σ.tables core).waiting p)))) → motive σ')
    (run : Run misuse accepts σ) : motive σ := by
  induction run with
  | init => exact hinit
  | @step σ σ' run step ih =>
      have hgood := run.good haccepts
      refine hstep σ σ' hgood ih step fun core p l hl => ?_
      have hrel := Releasing.init hgood hl
      set value := (σ.tables core).waiting p
      set σ₀ := σ.put core ((σ.tables core).dequeue p) with hσ₀
      have htable : σ₀.tables core = (σ.tables core).dequeue p := by
        rw [hσ₀, put_tables, Function.update_self]
      have hduring := release_induction (motive := fun visits σ =>
          Releasing strict core p visits σ.tables ∧ during core p value visits σ)
        (fun x visits σ hrel hσ => ⟨hrel.visit, hvisit σ core p value x visits hrel hσ.2⟩) hrel
        ⟨hrel, hbegin σ core p l run hgood ih hl⟩
      have hfinal := hend _ core p value hduring.1 hduring.2
      rw [← htable] at hfinal
      exact hfinal

/-- The table that the last call has left. -/
theorem Releasing.forget (h : Releasing strict core p [] σ.tables) :
    Good strict (σ.put core ((σ.tables core).forget p)).tables := by
  refine ⟨fun c => ?_, fun c c' q l l' hl hl' => ?_⟩
  · by_cases hc : c = core
    · rw [hc, put_tables, Function.update_self]
      exact h.table.forget
    · rw [put_tables, Function.update_of_ne hc]
      exact h.others c hc
  · have hbefore : ∀ c l, ((σ.put core ((σ.tables core).forget p)).tables c).locks q = some l →
        (σ.tables c).locks q = some l := by
      intro c l hl
      by_cases hc : c = core
      · rw [hc, put_tables, Function.update_self, Table.forget_locks] at hl
        split at hl
        · cases hl
        · rwa [hc]
      · rwa [put_tables, Function.update_of_ne hc] at hl
    exact h.apart c c' q l l' (hbefore c l hl) (hbefore c' l' hl')

/-- The rule for events: each call is in order if its return is, and a release is in order if each
round is. -/
theorem Run.logged (haccepts : ∀ p range, accepts p range → Table.Admissible strict p range)
    {P : Event Index Priority InProgress (Tables Index Priority InProgress) →
      List (Event Index Priority InProgress (Tables Index Priority InProgress)) → Prop}
    (hsilent : ∀ event log, event.mem = none → P event log)
    (hreturned : ∀ call reply tables log, Good strict tables → P (.returned call reply tables) log)
    (hvisit : ∀ (σ : System Index Priority InProgress) core p x visits,
      Releasing strict core p (x :: visits) σ.tables → σ.Requests →
      Logged P σ.log → Logged P (σ.visit core p x).log)
    (run : Run misuse accepts σ) : Logged P σ.log := by
  have hevent : ∀ (conflict : Option Index) p (inProgress : InProgress) log,
      P (lockEvent conflict p inProgress) log := by
    intro conflict p inProgress log
    refine hsilent _ _ ?_
    cases conflict <;> rfl
  refine Run.induction haccepts (fun σ => Logged P σ.log)
    (fun _ _ _ _ σ => σ.Requests ∧ Logged P σ.log) trivial ?_ ?_ ?_ ?_ run
  · exact fun σ core p l run _ h _ =>
      ⟨(run.requests haccepts).congr (fun q => rfl) (requestOf_put fun q => rfl), h⟩
  · exact fun σ core p _ x visits hrel h => ⟨h.1.visit, hvisit σ core p x visits hrel h.1 h.2⟩
  · exact fun σ core p value hrel h => ⟨hreturned _ _ _ _ hrel.forget, h.2⟩
  · intro σ σ' hgood ih step hunlock
    have hgood' := step.good haccepts hgood
    cases step with
    | lock => exact ⟨hreturned _ _ _ _ hgood', hevent _ _ _ _, ih⟩
    | tryLock => exact ⟨hreturned _ _ _ _ hgood', ih⟩
    | unlock core p hl => exact hunlock core p _ hl
    | inspect => exact ⟨hreturned _ _ _ _ hgood', ih⟩
    | lockPanic => exact ⟨hsilent _ _ rfl, hevent _ _ _ _, ih⟩
    | panic => exact ⟨hsilent _ _ rfl, ih⟩

/-! ## The events of a round -/

/-- The tables when `x` is resumed. -/
def shrunk (core : Addr) (p : LockPtr) (σ : System Index Priority InProgress)
    (x : LockPtr × Pending Index Priority InProgress) : Tables Index Priority InProgress :=
  Function.update σ.tables core ((σ.tables core).truncate p x.2.range.start)

omit [LinearOrder Priority] in
@[simp] theorem shrunk_self :
    σ.shrunk core p x core = (σ.tables core).truncate p x.2.range.start :=
  Function.update_self _ _ _

/-- The tables when the client is told that `x` is complete. -/
def completing (core : Addr) (p : LockPtr) (σ : System Index Priority InProgress)
    (x : LockPtr × Pending Index Priority InProgress) : Tables Index Priority InProgress :=
  Function.update (σ.shrunk core p x) core
    (((σ.tables core).truncate p x.2.range.start).dequeue x.1)

theorem visit_log_some {i : Index}
    (hfirst : (σ.shrunk core p x core).firstConflict x.1 x.2.range = some i) :
    (σ.visit core p x).log = .resumed x.1 (σ.visit core p x).tables ::
      .resuming x.1 (σ.shrunk core p x) :: σ.log := by
  rw [shrunk_self] at hfirst
  rw [visit, hfirst]
  rfl

theorem visit_log_none
    (hfirst : (σ.shrunk core p x core).firstConflict x.1 x.2.range = none) :
    (σ.visit core p x).log = .resumed x.1 (σ.visit core p x).tables ::
      .complete x.1 x.2.inProgress (σ.completing core p x) ::
        .resuming x.1 (σ.shrunk core p x) :: σ.log := by
  rw [shrunk_self] at hfirst
  rw [visit, hfirst, completing, ← shrunk_self]
  rfl

/-- What a round adds to the log. -/
theorem logged_visit {P : Event Index Priority InProgress (Tables Index Priority InProgress) →
      List (Event Index Priority InProgress (Tables Index Priority InProgress)) → Prop}
    (hlog : Logged P σ.log) (hresuming : P (.resuming x.1 (σ.shrunk core p x)) σ.log)
    (hcomplete : (σ.shrunk core p x core).firstConflict x.1 x.2.range = none →
      P (.complete x.1 x.2.inProgress (σ.completing core p x))
        (.resuming x.1 (σ.shrunk core p x) :: σ.log))
    (hresumed : ∀ log, Resumes x.1 (σ.shrunk core p x) σ.log log →
      P (.resumed x.1 (σ.visit core p x).tables) log) :
    Logged P (σ.visit core p x).log := by
  cases hfirst : (σ.shrunk core p x core).firstConflict x.1 x.2.range with
  | some i =>
      rw [visit_log_some hfirst]
      exact ⟨hresumed _ (Or.inl rfl), hresuming, hlog⟩
  | none =>
      rw [visit_log_none hfirst]
      exact ⟨hresumed _ (Or.inr ⟨_, _, _, rfl⟩), hcomplete hfirst, hresuming, hlog⟩

theorem Releasing.shrunk_sound (h : Releasing strict core p (x :: visits) σ.tables) (c : Addr) :
    (σ.shrunk core p x c).Sound strict := by
  by_cases hc : c = core
  · rw [hc, shrunk_self]
    exact h.table.truncate
  · rw [shrunk, Function.update_of_ne hc]
    exact (h.others c hc).toSound

theorem Releasing.completing_sound (h : Releasing strict core p (x :: visits) σ.tables) (c : Addr) :
    (σ.completing core p x c).Sound strict := by
  by_cases hc : c = core
  · rw [hc, completing, Function.update_self]
    exact h.table.truncate.dequeue x.1
  · rw [completing, Function.update_of_ne hc]
    exact h.shrunk_sound c

/-- At every event all tables are sound. -/
theorem Run.sound_events (haccepts : ∀ p range, accepts p range → Table.Admissible strict p range)
    (run : Run misuse accepts σ) :
    Logged (fun event _ => ∀ tables, event.mem = some tables → ∀ c, (tables c).Sound strict)
      σ.log := by
  refine run.logged haccepts (fun event log hnone tables hmem => ?_)
    (fun call reply tables log hgood tables' hmem c => ?_)
    fun σ core p x visits hrel _ hlog => logged_visit hlog ?_ (fun _ => ?_) fun log _ => ?_
  · rw [hnone] at hmem
    cases hmem
  · rw [← Option.some.inj hmem]
    exact (hgood.quiet c).toSound
  · rintro _ ⟨⟩ c
    exact hrel.shrunk_sound c
  · rintro _ ⟨⟩ c
    exact hrel.completing_sound c
  · rintro _ ⟨⟩ c
    exact hrel.visit.sound c

end System

end Interlock.Core
