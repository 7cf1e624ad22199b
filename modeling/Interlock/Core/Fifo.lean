import Interlock.Core.View

/-!
# The order of waiters

The order in which locks began to wait is stored nowhere.  It shows in the queue only: a new waiter
goes in front of all others with the same index and priority.  `Aged` says that the queue keeps to
the history, that is, of two such waiters the one behind has been waiting for longer.

From this it follows that no lock overtakes another one, except that a reader may join other
readers.
-/

namespace Interlock.Core

open Memory RbTree

variable {Index Priority InProgress : Type}

/-! ## Waiting for longer -/

section Longer
variable {Mem Mem' : Type} {waits : Mem → LockPtr → Prop} {p q : LockPtr} {mem init : Mem}
  {event : Event Index Priority InProgress Mem} {log : List (Event Index Priority InProgress Mem)}

theorem longer_cons_some (hmem : event.mem = some mem) :
    Longer waits p q (event :: log) ↔ waits mem p ∧ (¬ waits mem q ∨ Longer waits p q log) := by
  rw [Longer, hmem]

theorem longer_cons_none (hmem : event.mem = none) :
    Longer waits p q (event :: log) ↔ Longer waits p q log := by
  rw [Longer, hmem]

theorem Longer.asymm (h : Longer waits p q log) : ¬ Longer waits q p log := by
  induction log with
  | nil => exact absurd h not_false
  | cons event log ih =>
      cases hmem : event.mem with
      | none =>
          rw [longer_cons_none hmem] at h ⊢
          exact ih h
      | some mem =>
          rw [longer_cons_some hmem] at h ⊢
          rintro ⟨hq, hor⟩
          have hlonger := h.2.resolve_left (not_not_intro hq)
          exact ih hlonger (hor.resolve_left (not_not_intro h.1))

/-- The memory that the last event shows. -/
def latest (init : Mem) (log : List (Event Index Priority InProgress Mem)) : Mem :=
  (log.findSome? Event.mem).getD init

@[simp] theorem latest_cons_none (hmem : event.mem = none) :
    latest init (event :: log) = latest init log := by
  rw [latest, List.findSome?_cons_of_isNone (by rw [hmem]; rfl), latest]

@[simp] theorem latest_cons_some (hmem : event.mem = some mem) :
    latest init (event :: log) = mem := by
  rw [latest, List.findSome?_cons_of_isSome (by rw [hmem]; rfl), hmem]
  rfl

/-- If the last event shows `p` waiting, but not `q`, then a `q` that waits now has just begun
to. -/
theorem longer_of_latest (hinit : ¬ waits init p) (hp : waits (latest init log) p)
    (hq : ¬ waits (latest init log) q) : Longer waits p q log := by
  induction log with
  | nil => exact absurd hp hinit
  | cons event log ih =>
      cases hmem : event.mem with
      | none =>
          rw [latest_cons_none hmem] at hp hq
          exact (longer_cons_none hmem).mpr (ih hp hq)
      | some mem =>
          rw [latest_cons_some hmem] at hp hq
          exact (longer_cons_some hmem).mpr ⟨hp, Or.inl hq⟩

end Longer

variable [LinearOrder Index] [LinearOrder Priority]

/-- `p` waits at `i` in one of the tables. -/
def Tables.WaitsAt (i : Index) (tables : Tables Index Priority InProgress) (p : LockPtr) : Prop :=
  ∃ c w, (p, w) ∈ (tables c).queue ∧ w.range.start = i

/-- Of two waiters with the same index and priority, the one behind has been waiting for longer. -/
def Aged (tables : Tables Index Priority InProgress)
    (log : List (Event Index Priority InProgress (Tables Index Priority InProgress))) : Prop :=
  ∀ c, (tables c).queue.Pairwise fun a b =>
    a.2.range.start = b.2.range.start → a.2.priority = b.2.priority →
      Longer (Tables.WaitsAt a.2.range.start) b.1 a.1 log

section Aged
variable {tables tables' : Tables Index Priority InProgress} {core : Addr}
  {s' : Table Index Priority InProgress}
  {event : Event Index Priority InProgress (Tables Index Priority InProgress)}
  {log : List (Event Index Priority InProgress (Tables Index Priority InProgress))}
  {x : LockPtr × Pending Index Priority InProgress}

omit [LinearOrder Index] [LinearOrder Priority] in
theorem Aged.silent (h : Aged tables log) (hmem : event.mem = none) : Aged tables (event :: log) :=
  fun c => (h c).imp fun hab hstart hprio => (longer_cons_none hmem).mpr (hab hstart hprio)

omit [LinearOrder Index] [LinearOrder Priority] in
/-- The next event shows the same waiters. -/
theorem Aged.shown (h : Aged tables log) (hmem : event.mem = some tables')
    (hqueue : ∀ c, (tables' c).queue = (tables c).queue) : Aged tables' (event :: log) := by
  intro c
  rw [hqueue c]
  refine (h c).imp_of_mem fun {a b} _ hb hab hstart hprio => ?_
  refine (longer_cons_some hmem).mpr ⟨⟨c, b.2, by rwa [hqueue c], hstart.symm⟩, Or.inr ?_⟩
  exact hab hstart hprio

omit [LinearOrder Index] [LinearOrder Priority] in
/-- Some waiters go. -/
theorem Aged.sublist (h : Aged tables log) (hqueue : s'.queue.Sublist (tables core).queue) :
    Aged (Function.update tables core s') log := by
  intro c
  by_cases hc : c = core
  · rw [hc, Function.update_self]
    exact (h core).sublist hqueue
  · rw [Function.update_of_ne hc]
    exact h c

/-- A new waiter has waited for a shorter time than those that have been shown. -/
theorem Aged.enqueue (core : Addr) (h : Aged tables log)
    (holder : ∀ y ∈ (tables core).queue,
      Tables.WaitsAt y.2.range.start (latest (fun _ => .empty) log) y.1)
    (hx : ¬ Tables.WaitsAt x.2.range.start (latest (fun _ => .empty) log) x.1) :
    Aged (Function.update tables core ((tables core).enqueue x)) log := by
  intro c
  by_cases hc : c = core
  · rw [hc, Function.update_self]
    have hlonger : ∀ y ∈ (tables core).queue, x.2.range.start = y.2.range.start →
        Longer (Tables.WaitsAt x.2.range.start) y.1 x.1 log := by
      intro y hy hstart
      refine longer_of_latest ?_ (hstart ▸ holder y hy) hx
      rintro ⟨c', w, hw, -⟩
      exact List.not_mem_nil hw
    have hpairs := h core
    rw [← List.takeWhile_append_dropWhile (p := fun y => goesRight pendingNodeCallback x.2 y.2)
      (l := (tables core).queue)] at hpairs
    rw [List.pairwise_append] at hpairs
    obtain ⟨hbefore, hbehind, hacross⟩ := hpairs
    refine List.pairwise_append.mpr ⟨hbefore, List.pairwise_cons.mpr ⟨fun y hy hstart _ => ?_,
      hbehind⟩, fun y hy z hz => ?_⟩
    · exact hlonger y ((List.dropWhile_sublist _).mem hy) hstart
    · rcases List.mem_cons.mp hz with rfl | hz
      · -- What is in front of the new waiter has another index or priority
        have hright := List.mem_takeWhile_imp
          (p := fun y : LockPtr × _ => goesRight pendingNodeCallback z.2 y.2) hy
        rcases goesRight_pending.mp hright with hlt | ⟨-, hlt⟩
        · exact fun hstart => absurd hstart hlt.ne
        · exact fun _ hprio => absurd hprio hlt.ne
      · exact hacross y hy z hz
  · rw [Function.update_of_ne hc]
    exact h c

omit [LinearOrder Index] [LinearOrder Priority] in
theorem Aged.write (h : Aged tables log) (p : LockPtr) (f : InProgress → InProgress) :
    Aged (Function.update tables core ((tables core).write p f)) log := by
  intro c
  by_cases hc : c = core
  · rw [hc, Function.update_self]
    refine List.pairwise_map.mpr ((h core).imp fun {a b} hab => ?_)
    simpa using hab
  · rw [Function.update_of_ne hc]
    exact h c

end Aged

/-! ## Runs -/

namespace System
variable {misuse strict : Prop} {accepts : LockPtr → Range Index → Prop}
  {σ σ' : System Index Priority InProgress} {core : Addr} {p : LockPtr} {i : Index}
  {x : LockPtr × Pending Index Priority InProgress}
  {visits : List (LockPtr × Pending Index Priority InProgress)}

omit [LinearOrder Priority] in
theorem shrunk_queue (c : Addr) : (σ.shrunk core p x c).queue = (σ.tables c).queue := by
  by_cases hc : c = core
  · rw [hc, shrunk_self, Table.truncate_queue]
  · rw [shrunk, Function.update_of_ne hc]

theorem visit_tables_shrunk : (σ.visit core p x).tables =
    Function.update (σ.shrunk core p x) core ((σ.shrunk core p x core).resume x) := by
  rw [visit_tables, shrunk_self, shrunk, Function.update_idem]
  rfl

/-- A waiter waits at one index only. -/
theorem Releasing.start_of_waitsAt (hrel : Releasing strict core p visits σ.tables)
    (hx : x ∈ (σ.tables core).queue) (hw : Tables.WaitsAt i σ.tables x.1) :
    i = x.2.range.start := by
  obtain ⟨c, w, hw, rfl⟩ := hw
  obtain ⟨l, hl, -⟩ := (hrel.sound core).exists_lock hx
  obtain ⟨l', hl', -⟩ := (hrel.sound c).exists_lock hw
  obtain rfl := hrel.apart core c x.1 l l' hl hl'
  have heq := List.inj_on_of_nodup_map (hrel.sound core).queue_nodup hw hx rfl
  rw [← heq]

theorem Releasing.aged_visit (hrel : Releasing strict core p (x :: visits) σ.tables)
    (h : Aged σ.tables σ.log) : Aged (σ.visit core p x).tables (σ.visit core p x).log := by
  have hshrunk : Aged (σ.shrunk core p x) (.resuming x.1 (σ.shrunk core p x) :: σ.log) :=
    h.shown rfl shrunk_queue
  have hsound := hrel.shrunk_sound core
  have hmem : x ∈ (σ.shrunk core p x core).queue := by
    rw [shrunk_queue]
    exact hrel.table.mem_queue
  obtain ⟨l, hl, hrange, -, -⟩ := hsound.exists_lock hmem
  rcases hsound.resume_cases hmem hl with ⟨hfirst, heq⟩ | ⟨i, hfirst, hlt, -, heq⟩ | ⟨hfirst, heq⟩
  · rw [visit_log_some (hrange ▸ hfirst), visit_tables_shrunk, heq, Function.update_eq_self]
    exact hshrunk.shown rfl fun _ => rfl
  · rw [visit_log_some (hrange ▸ hfirst), visit_tables_shrunk, heq]
    set t := ((σ.shrunk core p x core).dequeue x.1).setHeld x.1 (some i) with ht
    have hsub : t.queue.Sublist (σ.shrunk core p x core).queue := List.filter_sublist
    have hgone := hshrunk.sublist hsub
    have hmoved : Aged (Function.update (σ.shrunk core p x) core (t.enqueue (Table.moveTo x i)))
        (.resuming x.1 (σ.shrunk core p x) :: σ.log) := by
      have henqueue := hgone.enqueue core (x := Table.moveTo x i) ?_ ?_
      · simpa only [Function.update_self, Function.update_idem] using henqueue
      · rw [Function.update_self, latest_cons_some rfl]
        exact fun y hy => ⟨core, y.2, hsub.mem hy, rfl⟩
      · rw [latest_cons_some rfl]
        rintro ⟨c, w, hw, hwi⟩
        rw [shrunk_queue] at hw
        have hi := hrel.start_of_waitsAt hrel.table.mem_queue ⟨c, w, hw, hwi⟩
        rw [hrange] at hi
        exact hlt.ne' hi
    exact hmoved.shown rfl fun _ => rfl
  · rw [visit_log_none (hrange ▸ hfirst), visit_tables_shrunk, heq]
    have hsub : ((σ.shrunk core p x core).dequeue x.1).queue.Sublist
        (σ.shrunk core p x core).queue := List.filter_sublist
    have hgone := hshrunk.sublist hsub
    have hcompleting : Aged (σ.completing core p x)
        (.complete x.1 x.2.inProgress (σ.completing core p x) ::
          .resuming x.1 (σ.shrunk core p x) :: σ.log) := by
      refine hgone.shown rfl fun c => ?_
      rw [completing, shrunk_self]
    refine hcompleting.shown rfl fun c => ?_
    by_cases hc : c = core
    · rw [hc, Function.update_self, completing, Function.update_self, shrunk_self]
      rfl
    · rw [Function.update_of_ne hc, completing, Function.update_of_ne hc]

/-- Between operations the queues keep to the history, and the last event shows the tables. -/
theorem Step.aged (hgood : Good strict σ.tables)
    (h : Aged σ.tables σ.log ∧ latest (fun _ => .empty) σ.log = σ.tables)
    (step : Step misuse accepts σ σ')
    (hunlock : ∀ core p l, (σ.tables core).locks p = some l →
      Aged (σ.unlock core p).tables ((σ.unlock core p).returned (.unlock core p)
        (.unlocked ((σ.tables core).waiting p))).log) :
    Aged σ'.tables σ'.log ∧ latest (fun _ => .empty) σ'.log = σ'.tables := by
  obtain ⟨haged, hlatest⟩ := h
  have hevent : ∀ (conflict : Option Index) p inProgress,
      (lockEvent conflict p inProgress : Event Index Priority InProgress
        (Tables Index Priority InProgress)).mem = none := by
    intro conflict p inProgress
    cases conflict <;> rfl
  cases step with
  | @lock isWrite core state range priority inProgress hrange hfresh =>
      refine ⟨?_, latest_cons_some rfl⟩
      have hsilent := haged.silent
        (hevent ((σ.tables core).firstConflict (lockPtr isWrite state) range)
        (lockPtr isWrite state) inProgress)
      have hadd : ∀ held, Aged (Function.update σ.tables core
          ((σ.tables core).add (lockPtr isWrite state) range held)) _ :=
        fun held => hsilent.sublist (List.Sublist.refl _)
      suffices hlock : Aged (σ.lock core (lockPtr isWrite state) range priority inProgress).tables
          (σ.lock core (lockPtr isWrite state) range priority inProgress).log from
        hlock.shown rfl fun _ => rfl
      show Aged (Function.update σ.tables core
        ((σ.tables core).lock (lockPtr isWrite state) range priority inProgress))
        (lockEvent ((σ.tables core).firstConflict (lockPtr isWrite state) range)
          (lockPtr isWrite state) inProgress :: σ.log)
      unfold Table.lock Table.lockAt
      cases hfirst : (σ.tables core).firstConflict (lockPtr isWrite state) range with
      | none =>
          rw [hfirst] at hadd
          exact hadd _
      | some i =>
          rw [hfirst] at hadd
          have henqueue := (hadd (if i = range.start then none else some i)).enqueue core
            (x := (lockPtr isWrite state, ⟨⟨i, range.stop⟩, priority, lockPtr isWrite state,
              inProgress⟩)) ?_ ?_
          · simpa only [Function.update_self, Function.update_idem] using henqueue
          · rw [Function.update_self, latest_cons_none rfl, hlatest]
            exact fun y hy => ⟨core, y.2, hy, rfl⟩
          · rw [latest_cons_none rfl, hlatest]
            rintro ⟨c, w, hw, -⟩
            exact hgood.not_queued hfresh c (List.mem_map_of_mem hw)
  | @tryLock isWrite core state range hrange hfresh =>
      refine ⟨?_, latest_cons_some rfl⟩
      have hqueue : ((σ.tables core).tryLock (tryLockPtr isWrite state) range).queue =
          (σ.tables core).queue := by
        unfold Table.tryLock
        split <;> rfl
      exact (haged.sublist (hqueue ▸ List.Sublist.refl _)).shown rfl fun _ => rfl
  | @unlock core p l hl => exact ⟨hunlock core p l hl, latest_cons_some rfl⟩
  | inspect isWrite core state write hl =>
      exact ⟨(haged.write _ _).shown rfl fun _ => rfl, latest_cons_some rfl⟩
  | lockPanic => exact ⟨(haged.silent (hevent _ _ _)).silent rfl, by
      rw [note_log, latest_cons_none rfl, note_log, latest_cons_none (hevent _ _ _), hlatest]
      rfl⟩
  | panic => exact ⟨haged.silent rfl, by rw [note_log, latest_cons_none rfl, hlatest]; rfl⟩

/-- Whoever acquires the index at which it waits overtakes nobody with a better claim to it, unless
it joins a reader that a writer has to wait for. -/
def NoOvertaking (event : Event Index Priority InProgress (Tables Index Priority InProgress))
    (log : List (Event Index Priority InProgress (Tables Index Priority InProgress))) : Prop :=
  ∀ q tables', event = .resumed q tables' → ∀ tables before, Resumes q tables before log →
    ∀ core a b, a ∈ (tables core).queue → b ∈ (tables core).queue → b.1 = q → a.1 ≠ q →
      a.2.range.start = b.2.range.start →
      (b.2.priority < a.2.priority ∨ b.2.priority = a.2.priority ∧
        Longer (Tables.WaitsAt b.2.range.start) a.1 q before) →
      (∃ l, (tables' core).locks q = some l ∧ l.Holds b.2.range.start) →
      a.1.kind.isWrite = true ∧ q.kind.isWrite = false ∧ ∃ r, r ≠ a.1 ∧ r ≠ q ∧
        r.kind.isWrite = false ∧ ∃ l, (tables core).locks r = some l ∧ l.Holds b.2.range.start

/-- A waiter with a better claim has been tried already. -/
theorem Releasing.not_mem_visits {a : LockPtr × Pending Index Priority InProgress}
    (hrel : Releasing strict core p (x :: visits) σ.tables) (h : Aged σ.tables σ.log)
    (hne : a.1 ≠ x.1) (hstart : a.2.range.start = x.2.range.start)
    (hclaim : x.2.priority < a.2.priority ∨ x.2.priority = a.2.priority ∧
      Longer (Tables.WaitsAt x.2.range.start) a.1 x.1 σ.log) : a ∉ x :: visits := by
  intro hmem
  have hvisits : a ∈ visits := (List.mem_cons.mp hmem).resolve_left fun heq => hne (heq ▸ rfl)
  obtain ⟨pre, post, hqueue, -⟩ := hrel.table.rest
  -- So it stands in front of `x`
  have hpair : ∀ R : _ → _ → Prop, (σ.tables core).queue.Pairwise R → R a x := by
    intro R hR
    rw [hqueue, List.reverse_cons, List.pairwise_append, List.pairwise_append,
      List.pairwise_append] at hR
    exact hR.1.2.1.2.2 a (List.mem_reverse.mpr hvisits) x List.mem_cons_self
  have hle : a.2.priority ≤ x.2.priority := by
    rcases hpair _ hrel.table.sorted with hlt | ⟨-, hle⟩
    · exact absurd hstart hlt.ne
    · exact hle
  rcases hclaim with hlt | ⟨heq, hlonger⟩
  · exact absurd hle (not_le.mpr hlt)
  · have hage := hpair _ (h core) hstart heq.symm
    rw [hstart] at hage
    exact hage.asymm hlonger

theorem Releasing.noOvertaking (hrel : Releasing True core p (x :: visits) σ.tables)
    (h : Aged σ.tables σ.log)
    (log : List (Event Index Priority InProgress (Tables Index Priority InProgress)))
    (hlog : Resumes x.1 (σ.shrunk core p x) σ.log log) :
    NoOvertaking (.resumed x.1 (σ.visit core p x).tables) log := by
  rintro _ _ ⟨⟩ tables before hlog' c a b ha hb hbx hne hstart hclaim hacquires
  obtain ⟨rfl, rfl⟩ : tables = σ.shrunk core p x ∧ before = σ.log := by
    rcases hlog with rfl | ⟨_, _, _, rfl⟩ <;>
      rcases hlog' with heq | ⟨_, _, _, heq⟩ <;> cases heq <;>
      exact ⟨rfl, rfl⟩
  rw [shrunk_queue] at ha hb
  have hxq := hrel.table.mem_queue
  -- `b` is the waiter that is resumed
  obtain rfl : core = c := by
    obtain ⟨l, hl, -⟩ := (hrel.sound core).exists_lock hxq
    obtain ⟨l', hl', -⟩ := (hrel.sound c).exists_lock hb
    rw [hbx] at hl'
    exact hrel.apart core c x.1 l l' hl hl'
  obtain rfl : b = x := List.inj_on_of_nodup_map (hrel.sound core).queue_nodup hb hxq hbx
  have hnot := hrel.not_mem_visits h hne hstart hclaim
  obtain ⟨r, hrp, hr⟩ := hrel.table.blocked trivial a ha hnot
  obtain ⟨lp, hlp, -⟩ := hrel.table.region
  have hsound := hrel.shrunk_sound core
  have hr' : (σ.shrunk core p b core).BlockedBy a r := by
    rw [shrunk_self]
    exact hr.truncate hlp hrp
  obtain ⟨lr, hra, hlr, hconf, hholds⟩ := hr'
  rw [hstart] at hholds
  have hbq : b ∈ (σ.shrunk core p b core).queue := by rwa [shrunk_queue]
  obtain ⟨l, hl, hrange, -, -⟩ := hsound.exists_lock hbq
  have hnotholds : ¬ l.Holds b.2.range.start := by
    rw [hrange]
    exact fun hh => lt_irrefl _ hh.2
  have hrb : r ≠ b.1 := by
    rintro rfl
    obtain rfl := Option.some.inj (hl.symm.trans hlr)
    exact hnotholds hholds
  have hfree : conflicting b.1 r = false := by
    by_contra hconf'
    -- Otherwise `b` is blocked as well, and does not acquire anything
    have hself := (hsound.resume_blocked trivial hbq
      ⟨lr, hrb, hlr, by simpa using hconf', hholds⟩).2
    obtain ⟨l', hl', hholds'⟩ := hacquires
    rw [visit_tables_shrunk, Function.update_self, hself] at hl'
    obtain rfl := Option.some.inj (hl.symm.trans hl')
    exact hnotholds hholds'
  rw [conflicting, Bool.or_eq_false_iff] at hfree
  rw [conflicting, hfree.2, Bool.or_false] at hconf
  exact ⟨hconf, hfree.1, r, hra, hrb, hfree.2, lr, hlr, hholds⟩

theorem Run.aged (haccepts : ∀ p range, accepts p range → Table.Admissible True p range)
    (run : Run misuse accepts σ) :
    Aged σ.tables σ.log ∧ Logged NoOvertaking σ.log := by
  have hrun := Run.induction haccepts
    (fun σ => (Aged σ.tables σ.log ∧ latest (fun _ => .empty) σ.log = σ.tables) ∧
      Logged NoOvertaking σ.log)
    (fun _ _ _ _ σ => Aged σ.tables σ.log ∧ Logged NoOvertaking σ.log) ?_ ?_ ?_ ?_ ?_ run
  · exact ⟨hrun.1.1, hrun.2⟩
  · exact ⟨⟨fun c => List.Pairwise.nil, rfl⟩, trivial⟩
  · exact fun σ core p l _ _ h _ => ⟨h.1.1.sublist List.filter_sublist, h.2⟩
  · intro σ core p value x visits hrel h
    refine ⟨hrel.aged_visit h.1, logged_visit h.2 ?_ (fun _ => ?_) (hrel.noOvertaking h.1)⟩
    · rintro _ _ ⟨⟩
    · rintro _ _ ⟨⟩
  · intro σ core p value hrel h
    have hforget : Aged (σ.put core ((σ.tables core).forget p)).tables σ.log :=
      h.1.sublist (List.Sublist.refl _)
    refine ⟨⟨hforget.shown rfl fun _ => rfl, latest_cons_some rfl⟩, ?_, h.2⟩
    rintro _ _ ⟨⟩
  · intro σ σ' hgood h step hunlock
    refine ⟨step.aged hgood h.1 fun core p l hl => (hunlock core p l hl).1.1, ?_⟩
    have hevent : ∀ (conflict : Option Index) q (inProgress : InProgress)
        (log : List (Event Index Priority InProgress (Tables Index Priority InProgress))),
        NoOvertaking (lockEvent conflict q inProgress) log := by
      intro conflict q inProgress log
      cases conflict <;> rintro _ _ ⟨⟩
    cases step with
    | lock => exact ⟨(by rintro _ _ ⟨⟩), hevent _ _ _ _, h.2⟩
    | tryLock => exact ⟨(by rintro _ _ ⟨⟩), h.2⟩
    | unlock core p hl => exact (hunlock core p _ hl).2
    | inspect => exact ⟨(by rintro _ _ ⟨⟩), h.2⟩
    | lockPanic => exact ⟨(by rintro _ _ ⟨⟩), hevent _ _ _ _, h.2⟩
    | panic => exact ⟨(by rintro _ _ ⟨⟩), h.2⟩

end System

/-! ## What a client sees -/

/-- `p` waits at `i`. -/
def Store.WaitsAt (i : Index) (store : Store Index Priority InProgress) (p : LockPtr) : Prop :=
  ∃ w, store.waiter p = some w ∧ w.range.start = i

section Reachable
variable {debug : Bool} {misuse : Prop} {world : World Index Priority InProgress}
  {tables : Tables Index Priority InProgress} {store : Store Index Priority InProgress} {i : Index}
  {p q : LockPtr} {log before : Log Index Priority InProgress}
  {log' : List (Event Index Priority InProgress (Tables Index Priority InProgress))}

theorem ModelsWith.waitsAt_iff (h : Models tables store) :
    store.WaitsAt i p ↔ Tables.WaitsAt i tables p := by
  constructor
  · rintro ⟨w, hw, rfl⟩
    obtain ⟨c, hc⟩ := h.waiter_iff.mp hw
    exact ⟨c, w, hc, rfl⟩
  · rintro ⟨c, w, hw, rfl⟩
    exact ⟨w, h.waiter_iff.mpr ⟨c, hw⟩, rfl⟩

omit [LinearOrder Index] [LinearOrder Priority] in
/-- Related events show related memories, or none. -/
theorem Event.Related.mem_cases {Mem Mem' : Type} {R : Mem → Mem' → Prop}
    {event : Event Index Priority InProgress Mem} {event' : Event Index Priority InProgress Mem'}
    (h : Event.Related R event event') :
    (event.mem = none ∧ event'.mem = none) ∨
      ∃ mem mem', event.mem = some mem ∧ event'.mem = some mem' ∧ R mem mem' := by
  cases h with
  | complete _ _ h | resuming _ h | resumed _ h | returned _ _ h =>
      exact Or.inr ⟨_, _, rfl, rfl, h⟩
  | inProgress | lockComplete | panicked => exact Or.inl ⟨rfl, rfl⟩

theorem SameLogWith.longer_iff (h : SameLog log log') :
    Longer (Store.WaitsAt i) p q log ↔ Longer (Tables.WaitsAt i) p q log' := by
  induction h with
  | nil => exact Iff.rfl
  | cons hevent _ ih =>
      rcases hevent.mem_cases with ⟨hmem, hmem'⟩ | ⟨mem, mem', hmem, hmem', hmodels⟩
      · rw [longer_cons_none hmem, longer_cons_none hmem', ih]
      · rw [longer_cons_some hmem, longer_cons_some hmem', ih, hmodels.waitsAt_iff,
          hmodels.waitsAt_iff]

/-- The log of a call of `resume_borrow`. -/
theorem SameLogWith.resumes (h : SameLog log log') (hlog : Resumes p store before log) :
    ∃ tables before', Models tables store ∧ SameLog before before' ∧
      Resumes p tables before' log' := by
  rcases hlog with rfl | ⟨_, inProgress, mem, rfl⟩
  · cases h with
    | cons hevent hbefore =>
        cases hevent with
        | resuming _ hmodels => exact ⟨_, _, hmodels, hbefore, Or.inl rfl⟩
  · cases h with
    | cons hevent hrest =>
        cases hrest with
        | cons hevent' hbefore =>
            cases hevent with
            | complete _ _ _ =>
                cases hevent' with
                | resuming _ hmodels => exact ⟨_, _, hmodels, hbefore, Or.inr ⟨_, _, _, rfl⟩⟩

/-- If a lock acquires the index at which it waits while `a`, which has the greater priority, or the
same and has been waiting for longer, waits there too, then `a` is a writer, the lock is a reader,
and a third lock holds the index for reading. -/
theorem World.Run.no_overtaking (run : World.Run debug misuse Nonempty world) (core : Addr)
    (r : Resumption Index Priority InProgress (Store Index Priority InProgress))
    (hr : r ∈ resumptions world.log) (a : LockPtr) (hne : a ≠ r.lock)
    (wa wb : Pending Index Priority InProgress) (ha : r.before.parent a = some core)
    (hb : r.before.parent r.lock = some core) (hwa : r.before.waiter a = some wa)
    (hwb : r.before.waiter r.lock = some wb) (hstart : wa.range.start = wb.range.start)
    (hclaim : wb.priority < wa.priority ∨ wb.priority = wa.priority ∧
      Longer (Store.WaitsAt wb.range.start) a r.lock r.log)
    (hacquires : r.after.Holds core r.lock wb.range.start) :
    a.kind.isWrite = true ∧ r.lock.kind.isWrite = false ∧ ∃ c, c ≠ a ∧ c ≠ r.lock ∧
      c.kind.isWrite = false ∧ r.before.Holds core c wb.range.start := by
  obtain ⟨σ, hσ, hrun, -⟩ := run.system
  obtain ⟨b, store, store', before⟩ := r
  obtain ⟨pre, log, hlog, hresumes⟩ := mem_resumptions hr
  obtain ⟨pre', event', log', hlog', hrelated, hpost⟩ := SameLogWith.of_append (hlog ▸ hσ.log)
  cases hrelated with
  | @resumed _ _ tables' hmodels' =>
      obtain ⟨tables, before', hmodels, hbefore, hresumes'⟩ := hpost.resumes hresumes
      have hevents := hrun.sound_events admissible_of_nonempty
      have horder := (hrun.aged admissible_of_nonempty).2
      rw [hlog'] at hevents horder
      -- The tables at the beginning of the resumption are sound
      have hsound : ∀ c, (tables c).Sound True := by
        have hlogged : ∃ mid, pre' ++ .resumed b tables' :: log' =
            mid ++ .resuming b tables :: before' := by
          rcases hresumes' with h | ⟨q, inProgress, mem, h⟩
          · exact ⟨pre' ++ [.resumed b tables'], by simp [h]⟩
          · exact ⟨pre' ++ [.resumed b tables', .complete q inProgress mem], by simp [h]⟩
        obtain ⟨mid, hmid⟩ := hlogged
        rw [hmid] at hevents
        exact hevents.of_append tables rfl
      have hqueueA := hmodels.mem_queue hsound ha hwa
      have hqueueB := hmodels.mem_queue hsound hb hwb
      have hclaim' : wb.priority < wa.priority ∨ wb.priority = wa.priority ∧
          Longer (Tables.WaitsAt wb.range.start) a b before' :=
        hclaim.imp_right fun h => ⟨h.1, hbefore.longer_iff.mp h.2⟩
      obtain ⟨hwrite, hread, c, hca, hcb, hc, hholds⟩ :=
        horder.of_append b tables' rfl tables before'
        hresumes' core (a, wa) (b, wb) hqueueA hqueueB rfl hne hstart hclaim'
        (hmodels'.holds_iff.mp hacquires)
      exact ⟨hwrite, hread, c, hca, hcb, hc, hmodels.holds_iff.mpr hholds⟩

end Reachable

/-- The second reader joins the first one. -/
theorem no_overtaking_handover : ∃ r ∈ resumptions (World.after true handover).log,
    r.lock = lockPtr false (slot 4) ∧ (lockPtr true (slot 3)).kind.isWrite = true ∧
      r.lock.kind.isWrite = false ∧ ∃ c, c ≠ lockPtr true (slot 3) ∧ c ≠ r.lock ∧
        c.kind.isWrite = false ∧ r.before.Holds (slot 0) c 5 := by
  -- A resumption shows where the two locks wait, and what the reader has acquired
  have hresumption : ∃ r ∈ resumptions (World.after true handover).log,
    r.lock = lockPtr false (slot 4) ∧
      r.before.parent (lockPtr true (slot 3)) = some (slot 0) ∧
      r.before.parent r.lock = some (slot 0) ∧
      (r.before.waiter (lockPtr true (slot 3))).map (fun w => (w.range.start, w.priority)) =
        some (5, 2) ∧
      (r.before.waiter r.lock).map (fun w => (w.range.start, w.priority)) = some (5, 1) ∧
      r.after.parent r.lock = some (slot 0) ∧ r.after.region r.lock = some ⟨5, 15⟩ := by
    decide +kernel
  obtain ⟨r, hmem, hlock, ha, hb, ha', hb', hparent, hregion⟩ := hresumption
  obtain ⟨wa, hwa, ha'⟩ := Option.map_eq_some_iff.mp ha'
  obtain ⟨wb, hwb, hb'⟩ := Option.map_eq_some_iff.mp hb'
  obtain ⟨hsa, hpa⟩ := Prod.mk.inj ha'
  obtain ⟨hsb, hpb⟩ := Prod.mk.inj hb'
  have hne : lockPtr true (slot 3) ≠ r.lock := by
    rw [hlock]
    decide
  have hacquires : r.after.Holds (slot 0) r.lock wb.range.start := by
    rw [hsb]
    exact ⟨hparent, _, hregion, by decide, by decide⟩
  have horder := (handover_run False).no_overtaking (slot 0) r hmem
    (lockPtr true (slot 3)) hne wa wb
    ha hb hwa hwb (hsa.trans hsb.symm) (Or.inl (by rw [hpa, hpb]; decide)) hacquires
  rw [hsb] at horder
  exact ⟨r, hmem, hlock, horder⟩

end Interlock.Core
