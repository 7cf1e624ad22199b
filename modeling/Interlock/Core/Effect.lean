import Interlock.Core.Visits

/-!
# What an unlock call does to the other locks

Most of them are left alone.  The waiters that stood inside the released region are resumed, and
each of them gets all that nobody is in the way of at that moment.

`Visited` of the last file tells what has become of each lock at the end of the loop.  `Released`
puts it together with the tables before the call and the memory after it.  Each other lock has been
visited, or it has not.  One that has not is as before, since a round changes the lock that is
released and the one that is resumed, and no others.  One that has been visited has been resumed
once, and `Table.Sound.resume_spec` says where the resumption leaves it: at the first conflict of
the rest of its request.  The waiter was in the memory of that moment as it was before the call, so
this conflict can be told in terms of the memory.  The locks released later in the loop do not undo
it.
-/

namespace Interlock.Core

open Memory RbTree

variable {Index Priority InProgress : Type} [LinearOrder Index] [LinearOrder Priority]

/-! ## Tables -/

/-- How a resumption ends: the first conflict `r` of the rest of the request is where the waiter
stands afterwards. -/
theorem Table.Sound.resume_spec {s : Table Index Priority InProgress}
    {x : LockPtr × Pending Index Priority InProgress} {l : Lock Index} (h : s.Sound True)
    (hx : x ∈ s.queue) (hl : s.locks x.1 = some l) :
    ∃ r, s.firstConflict x.1 x.2.range = r ∧
      IsFirst (fun i => l.pos ≤ i ∧ i < l.stop ∧ ¬ s.Free x.1 i) r ∧
      (∃ l', (s.resume x).locks x.1 = some l' ∧ l'.start = l.start ∧ l'.pos = r.getD l.stop ∧
        ∀ e, l.held = some e → ∃ e', e ≤ e' ∧ l'.held = some e') ∧
      ∀ w, (x.1, w) ∈ (s.resume x).queue ↔ r.map (fun i => (Table.moveTo x i).2) = some w := by
  obtain ⟨l', hl', hrange, hwf, hlt⟩ := h.exists_lock hx
  obtain rfl := Option.some.inj (hl.symm.trans hl')
  have hstop : l.pos < l.stop := hlt (hwf.nonempty (Or.inl trivial))
  have hfirst : IsFirst (fun i => l.pos ≤ i ∧ i < l.stop ∧ ¬ s.Free x.1 i)
      (s.firstConflict x.1 ⟨l.pos, l.stop⟩) := by
    refine h.firstConflict_isFirst_not_free trivial hstop fun m hm => ?_
    obtain rfl := Option.some.inj (hl.symm.trans hm)
    exact le_rfl
  have hdequeue : (s.dequeue x.1).locks x.1 = some l := hl
  have hpos : ∀ e, l.held = some e → e = l.pos := by
    intro e he
    rw [Lock.pos, he, Option.getD_some]
  refine ⟨_, by rw [hrange], hfirst, ?_, ?_⟩
  · rcases h.resume_cases hx hl with ⟨hconflict, heq⟩ | ⟨i, hconflict, hposlt, -, heq⟩ |
      ⟨hconflict, heq⟩
    · rw [heq, hconflict]
      exact ⟨l, hl, rfl, rfl, fun e he => ⟨e, le_rfl, he⟩⟩
    · rw [heq, hconflict]
      refine ⟨{ l with held := some i }, ?_, rfl, rfl, fun e he => ⟨i, ?_, rfl⟩⟩
      · rw [Table.enqueue_locks, Table.setHeld_locks _ _ _ _ hdequeue, if_pos rfl]
      · rw [hpos e he]
        exact hposlt.le
    · rw [heq, hconflict]
      refine ⟨{ l with held := some l.stop }, ?_, rfl, rfl, fun e he => ⟨l.stop, ?_, rfl⟩⟩
      · rw [Table.setHeld_locks _ _ _ _ hdequeue, if_pos rfl]
      · rw [hpos e he]
        exact hstop.le
  · intro w
    -- The waiter has one entry in the queue before, and at most one after
    have hself : ∀ w, (x.1, w) ∈ s.queue ↔ x.2 = w := by
      intro w
      constructor
      · intro hw
        have heq := List.inj_on_of_nodup_map h.queue_nodup hw hx rfl
        rw [← heq]
      · intro hw
        rw [← hw]
        exact hx
    have hgone : (x.1, w) ∉ (s.dequeue x.1).queue := by
      intro hmem
      exact Table.not_mem_dequeue s x.1 (List.mem_map.mpr ⟨_, hmem, rfl⟩)
    rcases h.resume_cases hx hl with ⟨hconflict, heq⟩ | ⟨i, hconflict, -, -, heq⟩ | ⟨hconflict, heq⟩
    · have hmoved : (Table.moveTo x l.pos).2 = x.2 := by
        have hstart : x.2.range.start = l.pos := by rw [hrange]
        rw [Table.moveTo, ← hstart]
      rw [heq, hconflict, Option.map_some, hmoved, hself w]
      exact Option.some_inj.symm
    · rw [heq, hconflict, Option.map_some, Option.some_inj]
      have hmem : (x.1, w) ∈ (((s.dequeue x.1).setHeld x.1 (some i)).enqueue
        (Table.moveTo x i)).queue ↔
          (x.1, w) = Table.moveTo x i ∨ (x.1, w) ∈ (s.dequeue x.1).queue :=
        insertSeq_perm.mem_iff.trans List.mem_cons
      rw [hmem, or_iff_left hgone]
      constructor
      · intro hw
        rw [← hw]
      · intro hw
        rw [← hw]
        rfl
    · rw [heq, hconflict]
      refine iff_of_false hgone ?_
      simp

/-! ## Memory -/

/-- The waiter `x` of `core` stands inside the region of `p`. -/
def Store.Inside (store : Store Index Priority InProgress) (core : Addr) (p : LockPtr)
    (x : LockPtr × Pending Index Priority InProgress) : Prop :=
  store.parent x.1 = some core ∧ store.Holds core p x.2.range.start

/-- What an unlock call of `p` does to the other locks.  It calls `resume_borrow` for the waiters of
`resumings`, each of which goes with the memory at that moment. -/
structure Store.Releases (before after : Store Index Priority InProgress)
    (log : Log Index Priority InProgress) (core : Addr) (p : LockPtr)
    (resumings : List (LockPtr × Store Index Priority InProgress)) : Prop where
  parent : ∀ q, q ≠ p → after.parent q = before.parent q
  /-- A region keeps its start, and does not shrink. -/
  grows : ∀ q r, q ≠ p → before.region q = some r →
    ∃ stop, r.stop ≤ stop ∧ after.region q = some ⟨r.start, stop⟩
  /-- Who is complete stays so, with the same region. -/
  complete : ∀ q, q ≠ p → before.waiter q = none →
    after.waiter q = none ∧ after.region q = before.region q
  /-- Who waits elsewhere goes on waiting. -/
  elsewhere : ∀ q w, q ≠ p → before.waiter q = some w → ¬ before.Inside core p (q, w) →
    after.waiter q = some w ∧ after.region q = before.region q
  order : ∀ c queue queue' x y, before.Queue c queue → after.Queue c queue' → x.1 ≠ p → y.1 ≠ p →
    ¬ before.Inside core p x → ¬ before.Inside core p y → [x, y].Sublist queue →
    [x, y].Sublist queue'
  /-- Who waits inside the region gets its range up to the first index that is blocked when it is
  resumed, or the whole of it. -/
  inside : ∀ q w range, q ≠ p → before.waiter q = some w → before.Inside core p (q, w) →
    requested q log = some range → ∃ mem r, (q, mem) ∈ resumings ∧ mem.waiter q = some w ∧
      mem.region q = before.region q ∧
      IsFirst (fun i => w.range.start ≤ i ∧ i < w.range.stop ∧ mem.BlockedAt core q i) r ∧
      after.waiter q = r.map (fun i => (Table.moveTo (q, w) i).2) ∧
      ∀ i, after.Holds core q i ↔ range.start ≤ i ∧ i < r.getD w.range.stop

section Reachable
variable {debug : Bool} {misuse : Prop} {world w : World Index Priority InProgress}
  {σ σ' : System Index Priority InProgress} {core : Addr} {p q : LockPtr} {l : Lock Index}
  {x : LockPtr × Pending Index Priority InProgress}

/-- The situation after an unlock call: the tables `σ` are those before, and `σ'` those at the end
of the loop. -/
structure Released (world w : World Index Priority InProgress)
    (σ σ' : System Index Priority InProgress)
    (core : Addr) (p : LockPtr) (l : Lock Index) : Prop where
  simulates : Simulates world σ
  requests : σ.Requests
  good : Good True σ.tables
  lock : (σ.tables core).locks p = some l
  visited : System.Visited True core p l.start ((σ.tables core).dequeue p)
    (((σ.tables core).dequeue p).waitersOf p) [] σ'
  tables : (σ.fresh.unlock core p).tables =
    Function.update σ.tables core ((σ'.tables core).forget p)
  models : Models (σ.fresh.unlock core p).tables w.store
  log : SameLog w.log σ'.log

namespace Released
variable (h : Released world w σ σ' core p l)
include h

theorem sound (c : Addr) : (σ.tables c).Sound True := (h.good.quiet c).toSound

theorem mem_visits : x ∈ ((σ.tables core).dequeue p).waitersOf p ↔
    x ∈ (σ.tables core).queue ∧ l.start ≤ x.2.range.start ∧ x.2.range.start < l.pos := by
  rw [(h.sound core).waitersOf_dequeue h.lock, List.mem_reverse, List.mem_filter, decide_eq_true_eq]

theorem inside_iff (hx : world.store.waiter x.1 = some x.2) :
    world.store.Inside core p x ↔ x ∈ ((σ.tables core).dequeue p).waitersOf p := by
  have hmodels := h.simulates.models
  rw [h.mem_visits, Store.Inside, hmodels.holds_iff]
  constructor
  · rintro ⟨hparent, l', hl', hholds⟩
    obtain rfl := Option.some.inj (h.lock.symm.trans hl')
    exact ⟨hmodels.mem_queue h.sound hparent hx, hholds⟩
  · rintro ⟨hqueue, hholds⟩
    obtain ⟨lx, hlx, -⟩ := (h.sound core).exists_lock hqueue
    exact ⟨hmodels.live_iff.mpr ⟨lx, hlx⟩, l, h.lock, hholds⟩

/-- A waiter that has not been resumed has kept its lock and its place. -/
theorem others (hqp : q ≠ p) (hq : q ∉ (((σ.tables core).dequeue p).waitersOf p).map Prod.fst)
    (c : Addr) : ((σ.fresh.unlock core p).tables c).locks q = (σ.tables c).locks q ∧
      ∀ w, (q, w) ∈ ((σ.fresh.unlock core p).tables c).queue ↔ (q, w) ∈ (σ.tables c).queue := by
  rw [h.tables]
  by_cases hc : c = core
  · rw [hc, Function.update_self, Table.forget_locks, if_neg hqp, Table.forget_queue]
    refine ⟨h.visited.locks q hqp hq, fun w => ?_⟩
    rw [h.visited.queue (q, w) hq]
    simp [Table.dequeue, removeSeq, hqp]
  · rw [Function.update_of_ne hc]
    exact ⟨rfl, fun _ => Iff.rfl⟩

theorem unchanged (hqp : q ≠ p) (hq : q ∉ (((σ.tables core).dequeue p).waitersOf p).map Prod.fst) :
    w.store.waiter q = world.store.waiter q ∧ w.store.region q = world.store.region q := by
  constructor
  · refine Option.ext fun entry => ?_
    rw [h.models.waiter_iff, h.simulates.models.waiter_iff]
    exact exists_congr fun c => (h.others hqp hq c).2 entry
  · exact (h.simulates.models.lock_congr h.models fun c => (h.others hqp hq c).1).2

/-- What has become of a waiter that has been resumed. -/
theorem resumed (hx : x ∈ ((σ.tables core).dequeue p).waitersOf p) :
    ∃ lx l' mem r, (σ.tables core).locks x.1 = some lx ∧
      ((σ.fresh.unlock core p).tables core).locks x.1 = some l' ∧
      (x.1, mem) ∈ resumings w.log ∧ mem.waiter x.1 = some x.2 ∧
      mem.region x.1 = world.store.region x.1 ∧
      IsFirst (fun i => x.2.range.start ≤ i ∧ i < x.2.range.stop ∧ mem.BlockedAt core x.1 i) r ∧
      w.store.waiter x.1 = r.map (fun i => (Table.moveTo x i).2) ∧
      l'.start = lx.start ∧ l'.pos = r.getD x.2.range.stop ∧
      ∀ e, lx.held = some e → ∃ e', e ≤ e' ∧ l'.held = some e' := by
  have hqueue := (h.mem_visits.mp hx).1
  obtain ⟨lx, hlx, hrange, -, -⟩ := (h.sound core).exists_lock hqueue
  have hxp : x.1 ≠ p := by
    intro hxp
    have hmem := List.mem_map_of_mem (f := Prod.fst) (Table.waitersOf_subset hx)
    rw [hxp] at hmem
    exact Table.not_mem_dequeue (σ.tables core) p hmem
  obtain ⟨tables, hmem, hseen, hlocks, hentry⟩ := h.visited.left x hx
  -- The memory with these tables
  obtain ⟨mem, hmem, hmodels⟩ := h.log.exists_resuming hmem
  have hlx' : (tables core).locks x.1 = some lx := hseen.locks.trans hlx
  obtain ⟨r, -, hfirst, ⟨l', hl', hstart, hpos, hheld⟩, hw⟩ :=
    (hseen.sound core).resume_spec hseen.mem_queue hlx'
  have hpstart : x.2.range.start = lx.pos := by rw [hrange]
  have hpstop : x.2.range.stop = lx.stop := by rw [hrange]
  refine ⟨lx, l', mem, r, hlx, ?_, hmem, hmodels.waiter_eq hseen.mem_queue, ?_, ?_, ?_, hstart, ?_,
    hheld⟩
  · rw [h.tables, Function.update_self, Table.forget_locks, if_neg hxp, hlocks, hl']
  · rw [hmodels.region_eq hlx', h.simulates.models.region_eq hlx]
  · rw [hpstart, hpstop]
    exact hfirst.congr fun i => by rw [hmodels.blockedAt_iff]
  · refine Option.ext fun entry => ?_
    rw [h.models.waiter_iff, ← hw entry, ← hentry entry, h.tables]
    constructor
    · rintro ⟨c, hc⟩
      by_cases hcore : c = core
      · rwa [hcore, Function.update_self, Table.forget_queue] at hc
      · rw [Function.update_of_ne hcore] at hc
        obtain ⟨m, hm, -⟩ := (h.sound c).exists_lock hc
        exact absurd (h.good.apart c core x.1 m lx hm hlx) hcore
    · intro hentry'
      refine ⟨core, ?_⟩
      rwa [Function.update_self, Table.forget_queue]
  · rw [hpos, hpstop]

/-- A waiter that stood inside the region is one of the visited, and nobody else is. -/
theorem visited_cases (q : LockPtr) :
    (∃ x ∈ ((σ.tables core).dequeue p).waitersOf p, x.1 = q ∧ world.store.waiter q = some x.2) ∨
      q ∉ (((σ.tables core).dequeue p).waitersOf p).map Prod.fst := by
  by_cases hq : q ∈ (((σ.tables core).dequeue p).waitersOf p).map Prod.fst
  · obtain ⟨x, hx, rfl⟩ := List.mem_map.mp hq
    exact Or.inl ⟨x, hx, rfl, h.simulates.models.waiter_eq (h.mem_visits.mp hx).1⟩
  · exact Or.inr hq

theorem releases : world.store.Releases w.store world.log core p (resumings w.log) := by
  have hmodels := h.simulates.models
  refine ⟨?_, ?_, ?_, ?_, ?_, ?_⟩
  · intro q hqp
    refine Option.ext fun c => ?_
    have hrequest : ((σ.fresh.unlock core p).tables c).requestOf q = (σ.tables c).requestOf q := by
      rw [System.unlock_tables]
      by_cases hc : c = core
      · rw [hc, Function.update_self]
        exact Table.unlock_requestOf hqp
      · rw [Function.update_of_ne hc]
        rfl
    have hlive := congrArg Option.isSome hrequest
    rw [Table.requestOf, Table.requestOf, Option.isSome_map, Option.isSome_map] at hlive
    rw [h.models.live_iff, hmodels.live_iff, ← Option.isSome_iff_exists, ← Option.isSome_iff_exists,
      hlive]
  · intro q r hqp hr
    rcases h.visited_cases q with ⟨x, hx, rfl, -⟩ | hq
    · obtain ⟨lx, l', mem, r', hlx, hl', -, -, -, -, -, hstart, -, hheld⟩ := h.resumed hx
      rw [hmodels.region_eq hlx] at hr
      obtain ⟨e, he, rfl⟩ := Option.map_eq_some_iff.mp hr
      obtain ⟨e', hle, he'⟩ := hheld e he
      refine ⟨e', hle, ?_⟩
      rw [h.models.region_eq hl', he', hstart]
      rfl
    · exact ⟨r.stop, le_rfl, (h.unchanged hqp hq).2.trans hr⟩
  · intro q hqp hnone
    rcases h.visited_cases q with ⟨x, -, rfl, hx⟩ | hq
    · rw [hnone] at hx
      cases hx
    · obtain ⟨hwaiter, hregion⟩ := h.unchanged hqp hq
      exact ⟨hwaiter.trans hnone, hregion⟩
  · intro q w' hqp hw' hnot
    have hq : q ∉ (((σ.tables core).dequeue p).waitersOf p).map Prod.fst := by
      rcases h.visited_cases q with ⟨x, hx, rfl, hw''⟩ | hq
      · obtain rfl := Option.some.inj (hw'.symm.trans hw'')
        exact absurd ((h.inside_iff hw').mpr hx) hnot
      · exact hq
    obtain ⟨hwaiter, hregion⟩ := h.unchanged hqp hq
    exact ⟨hwaiter.trans hw', hregion⟩
  · intro c queue queue' x y hqueue hqueue' hxp hyp hx hy hsub
    obtain rfl := hmodels.queue_iff.mp hqueue
    obtain rfl := h.models.queue_iff.mp hqueue'
    rw [h.tables]
    by_cases hc : c = core
    · rw [hc] at hsub
      rw [hc, Function.update_self, Table.forget_queue]
      refine List.Sublist.trans ?_ h.visited.order
      have hkept : ∀ z ∈ [x, y], z.1 ≠ p ∧
          z.1 ∉ (((σ.tables core).dequeue p).waitersOf p).map Prod.fst := by
        intro z hz
        have hqueue := hsub.mem hz
        have hzp : z.1 ≠ p ∧ ¬ world.store.Inside core p z := by
          rcases List.mem_pair.mp hz with rfl | rfl
          · exact ⟨hxp, hx⟩
          · exact ⟨hyp, hy⟩
        refine ⟨hzp.1, fun hmem => ?_⟩
        obtain ⟨z', hz', heq⟩ := List.mem_map.mp hmem
        have hsame := List.inj_on_of_nodup_map (h.sound core).queue_nodup
          (h.mem_visits.mp hz').1 hqueue heq
        rw [hsame] at hz'
        exact hzp.2 ((h.inside_iff (hmodels.waiter_eq hqueue)).mpr hz')
      have hfilter : ([x, y].filter fun z => z.1 ≠ p).filter (fun z =>
          z.1 ∉ (((σ.tables core).dequeue p).waitersOf p).map Prod.fst) = [x, y] := by
        rw [List.filter_filter]
        refine List.filter_eq_self.mpr fun z hz => ?_
        simp only [Bool.and_eq_true, decide_eq_true_eq]
        exact (hkept z hz).symm
      rw [← hfilter]
      exact (hsub.filter _).filter _
    · rwa [Function.update_of_ne hc]
  · intro q w' range hqp hw' hinside hrange
    have hx := (h.inside_iff (x := (q, w')) hw').mp hinside
    obtain ⟨lx, l', mem, r, hlx, hl', hmem, hwaiter, hregion, hfirst, hafter, hstart, hpos, -⟩ :=
      h.resumed hx
    refine ⟨mem, r, hmem, hwaiter, hregion, hfirst, hafter, fun i => ?_⟩
    have hlstart : lx.start = range.start := by
      rw [h.simulates.log.requested] at hrange
      obtain ⟨c, hc⟩ := (h.requests q range).mp hrange
      obtain ⟨m, hm, rfl⟩ := Option.map_eq_some_iff.mp hc
      obtain rfl := h.good.apart c core q m lx hm hlx
      obtain rfl := Option.some.inj (hm.symm.trans hlx)
      rfl
    rw [h.models.holds_iff]
    constructor
    · rintro ⟨m, hm, hholds⟩
      obtain rfl := Option.some.inj (hl'.symm.trans hm)
      rw [← hlstart, ← hstart, ← hpos]
      exact hholds
    · intro hi
      rw [← hlstart, ← hstart, ← hpos] at hi
      exact ⟨l', hl', hi⟩

end Released

/-- An unlock call, also one that cancels, changes the other locks in this way only. -/
theorem World.Run.unlock_releases (run : World.Run debug misuse Nonempty world) (core : Addr)
    (p : LockPtr) (hparent : world.store.parent p = some core) :
    ∃ reply w, Call.perform debug (.unlock core p) world.fresh = .ok reply w ∧
      world.store.Releases w.store world.log core p (resumings w.log) := by
  obtain ⟨σ, hσ, hrun, hgood⟩ := run.system
  obtain ⟨l, hl⟩ := hσ.models.exists_lock hparent
  have hfresh : Simulates world.fresh σ.fresh := ⟨hσ.models, List.Forall₂.nil⟩
  have hreturns : Runs (Call.perform debug (.unlock core p)) world.fresh _ :=
    unlock_returns hfresh hgood (fun _ => trivial) core p hl
  obtain ⟨reply, w, hperform, hw, -⟩ := hreturns
  obtain ⟨σ', hvisited, -, hunlock⟩ := System.Visited.unlock hgood hl
  have hlog : SameLog w.log σ'.log := by
    have hlog := hw.log
    rwa [hunlock] at hlog
  have htables : (σ.fresh.unlock core p).tables =
      Function.update σ.tables core ((σ'.tables core).forget p) := by
    have htables : (σ.fresh.unlock core p).tables = _ := System.unlock_tables σ.fresh
    have hself := congrFun htables core
    rw [hunlock, System.put_tables, Function.update_self, Function.update_self] at hself
    rw [htables, hself]
    rfl
  exact ⟨reply, w, hperform, Released.releases
    ⟨hσ, hrun.requests admissible_of_nonempty, hgood, hl, hvisited, htables, hw.models, hlog⟩⟩

/-- The writer of `0..10` is unlocked, for which two readers and a writer wait. -/
theorem unlock_releases_crowd : ∃ reply w,
    Call.perform true (.unlock (slot 0) (lockPtr true (slot 1))) (World.after true crowd).fresh =
      .ok reply w ∧
    (World.after true crowd).store.Releases w.store (World.after true crowd).log (slot 0)
      (lockPtr true (slot 1)) (resumings w.log) :=
  (crowd_run False).unlock_releases (slot 0) (lockPtr true (slot 1)) (by decide +kernel)

end Reachable

end Interlock.Core
