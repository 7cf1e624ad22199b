import Interlock.Core.View

/-!
# Exclusion, no lost waiters, no deadlock

The properties of the core that its clients rely on, in every world that a run with non-empty ranges
reaches.
-/

namespace Interlock.Core

open Memory RbTree

variable {Index Priority InProgress : Type} [LinearOrder Index] [LinearOrder Priority]

/-! ## Tables -/

namespace System
variable {misuse strict : Prop} {accepts : LockPtr → Range Index → Prop}
  {σ : System Index Priority InProgress} {core : Addr} {p : LockPtr}
  {x : LockPtr × Pending Index Priority InProgress}
  {visits : List (LockPtr × Pending Index Priority InProgress)}

/-- When `p` is complete, nobody conflicts with any part of its request. -/
def CompletesFree (event : Event Index Priority InProgress (Tables Index Priority InProgress))
    (log : List (Event Index Priority InProgress (Tables Index Priority InProgress))) : Prop :=
  ∀ p inProgress tables, event = .complete p inProgress tables → ∃ core l,
    (tables core).locks p = some l ∧ requested p log = some l.request ∧
      ∀ i, l.start ≤ i → i < l.stop → (tables core).Free p i

theorem Releasing.completesFree (h : Releasing strict core p (x :: visits) σ.tables)
    (hrequests : σ.Requests)
    (hfirst : (σ.shrunk core p x core).firstConflict x.1 x.2.range = none) :
    CompletesFree (.complete x.1 x.2.inProgress (σ.completing core p x))
      (.resuming x.1 (σ.shrunk core p x) :: σ.log) := by
  rintro _ _ _ ⟨⟩
  have hsound := h.shrunk_sound core
  have hmem : x ∈ (σ.shrunk core p x core).queue := by
    rw [shrunk_self, Table.truncate_queue]
    exact h.table.mem_queue
  obtain ⟨l, hl, hrange, -, -⟩ := hsound.exists_lock hmem
  have hlocks : (σ.completing core p x core).locks = (σ.shrunk core p x core).locks := by
    rw [completing, Function.update_self, Table.dequeue_locks, shrunk_self]
  refine ⟨core, l, by rw [hlocks, hl], ?_, fun i hstart hstop => ?_⟩
  · have hrequest : (σ.tables core).requestOf x.1 = some l.request := by
      rw [← Table.truncate_requestOf, ← shrunk_self, Table.requestOf, hl, Option.map_some]
    exact (hrequests x.1 l.request).mpr ⟨core, hrequest⟩
  · rw [hrange] at hfirst
    have hfree : (σ.shrunk core p x core).Free x.1 i :=
      hsound.free_of_resume (i := l.stop) hl (by rw [hfirst]; rfl) hstart hstop
    intro q lq hne hlq
    rw [hlocks] at hlq
    exact hfree q lq hne hlq

theorem Run.completesFree (haccepts : ∀ p range, accepts p range → Table.Admissible strict p range)
    (run : Run misuse accepts σ) : Logged CompletesFree σ.log := by
  refine run.logged haccepts (fun event log hnone => ?_) (fun call reply tables log _ => ?_)
    fun σ core p x visits hrel hrequests hlog => logged_visit hlog ?_
      (hrel.completesFree hrequests) fun log _ => ?_
  · rintro p inProgress tables rfl
    cases hnone
  · rintro _ _ _ ⟨⟩
  · rintro _ _ _ ⟨⟩
  · rintro _ _ _ ⟨⟩

end System

/-! ## Mutual exclusion -/

section Reachable
variable {debug : Bool} {misuse : Prop} {world : World Index Priority InProgress}
  {σ : System Index Priority InProgress} {tables : Tables Index Priority InProgress}
  {store : Store Index Priority InProgress} {core : Addr} {p q : LockPtr}

/-- No index is held by a writer and by another lock.  When a waiter is complete, nobody conflicts
with any index of the range that it has asked for. -/
theorem World.Run.mutual_exclusion (run : World.Run debug misuse Nonempty world) :
    (∀ store, world.Shown store → ∀ core p q i, p ≠ q → p.kind.isWrite = true →
      store.Holds core p i → ¬ store.Holds core q i) ∧
    ∀ pre p inProgress store post, world.log = pre ++ .complete p inProgress store :: post →
      ∃ core range, store.parent p = some core ∧ requested p post = some range ∧
        ∀ i, range.start ≤ i → i < range.stop → ¬ store.BlockedAt core p i := by
  constructor
  · intro store hshown core p q i hne hwrite hp hq
    obtain ⟨tables, hmodels, hsound⟩ := run.shown hshown
    obtain ⟨lp, hlp, hpi⟩ := hmodels.holds_iff.mp hp
    obtain ⟨lq, hlq, hqi⟩ := hmodels.holds_iff.mp hq
    have hconf : conflicting p q := by rw [conflicting, hwrite, Bool.true_or]
    exact (hsound core).exclusive p lp i hlp hpi q lq (Ne.symm hne) hlq hconf hqi
  · intro pre p inProgress store post hlog
    obtain ⟨σ, hσ, hrun, -⟩ := run.system
    obtain ⟨pre', event', post', hlog', hrelated, hpost⟩ := SameLogWith.of_append (hlog ▸ hσ.log)
    have hfree := hrun.completesFree admissible_of_nonempty
    rw [hlog'] at hfree
    cases hrelated with
    | @complete _ _ _ tables hmodels =>
        obtain ⟨core, l, hl, hrequested, hfree⟩ := hfree.of_append p inProgress tables rfl
        refine ⟨core, l.request, hmodels.live_iff.mpr ⟨l, hl⟩, hpost.requested p ▸ hrequested, ?_⟩
        intro i hstart hstop hblocked
        exact hmodels.blockedAt_iff.mp hblocked (hfree i hstart hstop)

/-- When the writer of `handover` is unlocked, both readers that wait are complete. -/
theorem mutual_exclusion_handover :
    (completions (World.after true handover).log).map Prod.fst =
      [lockPtr false (slot 4), lockPtr false (slot 2)] ∧
    (∀ store, (World.after true handover).Shown store →
      ∀ core p q i, p ≠ q → p.kind.isWrite = true →
        store.Holds core p i → ¬ store.Holds core q i) ∧
    ∀ pre p inProgress store post,
      (World.after true handover).log = pre ++ .complete p inProgress store :: post →
      ∃ core range, store.parent p = some core ∧ requested p post = some range ∧
        ∀ i, range.start ≤ i → i < range.stop → ¬ store.BlockedAt core p i :=
  ⟨by decide +kernel, (handover_run False).mutual_exclusion⟩

/-! ## Waiters -/

/-- A waiter holds its range up to the index at which it waits, and there it is blocked. -/
theorem World.Run.waiter_blocked (run : World.Run debug misuse Nonempty world) (p : LockPtr)
    (w : Pending Index Priority InProgress) (hw : world.store.waiter p = some w) :
    ∃ core range, world.store.parent p = some core ∧ requested p world.log = some range ∧
      range.start ≤ w.range.start ∧ w.range.start < range.stop ∧ w.range.stop = range.stop ∧
      world.store.region p = (if w.range.start = range.start then none
        else some ⟨range.start, w.range.start⟩) ∧
      world.store.BlockedAt core p w.range.start := by
  obtain ⟨σ, hσ, hrun, hgood⟩ := run.system
  obtain ⟨core, hparent, hx⟩ := hσ.models.parent_of_waiter (fun c => (hgood.quiet c).toSound) hw
  have hquiet := hgood.quiet core
  obtain ⟨l, hl, hrange, hwf, hlt⟩ := hquiet.exists_lock hx
  have hwstart : w.range.start = l.pos := by rw [hrange]
  have hrequested : requested p world.log = some l.request := by
    rw [hσ.log.requested]
    exact (hrun.requests admissible_of_nonempty p l.request).mpr
      ⟨core, by rw [Table.requestOf, hl, Option.map_some]⟩
  have hnonempty := hwf.nonempty (Or.inl trivial)
  refine ⟨core, l.request, hparent, hrequested, ?_, ?_, by rw [hrange]; rfl, ?_, ?_⟩
  · exact hwstart ▸ hwf.start_le_pos
  · exact hwstart ▸ hlt hnonempty
  · rw [hσ.models.region_eq hl, hwstart]
    cases hheld : l.held with
    | none => simp [Lock.pos, hheld, Lock.request]
    | some e =>
        have hne : l.pos ≠ l.start := by
          rw [Lock.pos, hheld]
          exact ((hwf.held e hheld).2.2 hnonempty).ne'
        rw [Lock.request, if_neg hne, Lock.pos, hheld]
        rfl
  · obtain ⟨r, lr, hne, hlr, hconf, hholds⟩ := hquiet.blocked trivial _ hx
    exact ⟨r, hne, hconf, hσ.models.holds_iff.mpr ⟨lr, hlr, hholds⟩⟩

/-- The reader that waits at 5. -/
theorem waiter_blocked_tour : ∃ core range,
    (World.after true tour).store.parent (lockPtr false (slot 2)) = some core ∧
    requested (lockPtr false (slot 2)) (World.after true tour).log = some range ∧
    range.start ≤ 5 ∧ 5 < range.stop ∧ 15 = range.stop ∧
    (World.after true tour).store.region (lockPtr false (slot 2)) =
      (if 5 = range.start then none else some ⟨range.start, 5⟩) ∧
    (World.after true tour).store.BlockedAt core (lockPtr false (slot 2)) 5 :=
  (tour_run False).waiter_blocked (lockPtr false (slot 2)) ⟨⟨5, 15⟩, 1, lockPtr false (slot 2), 101⟩
    rfl

/-! ## Deadlock -/

/-- `p` waits at an index that `q` holds. -/
def Store.WaitsFor (store : Store Index Priority InProgress) (core : Addr) (p q : LockPtr) : Prop :=
  ∃ w, store.parent p = some core ∧ store.waiter p = some w ∧ q ≠ p ∧ conflicting p q ∧
    store.Holds core q w.range.start

/-- `p` is locked, and does not wait. -/
def Store.Complete (store : Store Index Priority InProgress) (core : Addr) (p : LockPtr) : Prop :=
  store.parent p = some core ∧ store.waiter p = none

/-- There are `n` calls to make that unlock a complete lock, whichever one is unlocked each time. -/
def World.Drains (debug : Bool) (core : Addr) : ℕ → World Index Priority InProgress → Prop
  | 0, world => ∀ p, world.store.parent p ≠ some core
  | n + 1, world => (∃ p, world.store.Complete core p) ∧ ∀ p, world.store.Complete core p →
      ∃ w, Call.perform debug (.unlock core p) world = .ok (.unlocked none) w ∧
        w.Drains debug core n

/-- How far a lock has got, as a measure of locks. -/
def Table.reach (s : Table Index Priority InProgress) (p : LockPtr) : WithBot Index :=
  (s.locks p).map Lock.pos

theorem ModelsWith.reach_lt (h : Models tables store) (hsound : ∀ c, (tables c).Sound True)
    (hpq : store.WaitsFor core p q) : (tables core).reach p < (tables core).reach q := by
  obtain ⟨w, hparent, hw, -, -, hholds⟩ := hpq
  obtain ⟨l, hl, hrange, -, -⟩ := (hsound core).exists_lock (h.mem_queue hsound hparent hw)
  obtain ⟨lq, hlq, hholds⟩ := h.holds_iff.mp hholds
  rw [Table.reach, Table.reach, hl, hlq]
  refine WithBot.coe_lt_coe.mpr (lt_of_eq_of_lt ?_ hholds.2)
  rw [hrange]

/-- Somebody is in front of all others, and does not wait. -/
theorem Table.Quiet.exists_complete {s : Table Index Priority InProgress} (h : s.Quiet True)
    (hlive : s.live ≠ []) : ∃ p l, s.locks p = some l ∧ p ∉ s.queue.map Prod.fst := by
  obtain ⟨p, hp, hmax⟩ := s.live.toFinset.exists_max_image s.reach
    (List.toFinset_nonempty_iff _ |>.mpr hlive)
  obtain ⟨l, hl⟩ := (h.mem_live p).mp (List.mem_toFinset.mp hp)
  refine ⟨p, l, hl, fun hqueue => ?_⟩
  obtain ⟨x, hx, rfl⟩ := List.mem_map.mp hqueue
  obtain ⟨l', hl', hrange, -, -⟩ := h.exists_lock hx
  obtain rfl := Option.some.inj (hl.symm.trans hl')
  obtain ⟨r, lr, -, hlr, -, hholds⟩ := h.blocked trivial x hx
  have hle := hmax r (List.mem_toFinset.mpr ((h.mem_live r).mpr ⟨lr, hlr⟩))
  rw [Table.reach, Table.reach, hl, hlr] at hle
  have hlt : l.pos < lr.pos := by
    rw [hrange] at hholds
    exact hholds.2
  exact absurd (WithBot.coe_le_coe.mp hle) (not_le.mpr hlt)

theorem ModelsWith.complete_iff (h : Models tables store) (hsound : ∀ c, (tables c).Sound True) :
    store.Complete core p ↔
      (∃ l, (tables core).locks p = some l) ∧ p ∉ (tables core).queue.map Prod.fst := by
  constructor
  · rintro ⟨hparent, hnone⟩
    refine ⟨h.exists_lock hparent, fun hmem => ?_⟩
    obtain ⟨x, hx, rfl⟩ := List.mem_map.mp hmem
    rw [h.waiter_eq hx] at hnone
    cases hnone
  · rintro ⟨hl, hnot⟩
    have hparent := h.live_iff.mpr hl
    refine ⟨hparent, ?_⟩
    by_contra hsome
    obtain ⟨w, hw⟩ := Option.ne_none_iff_exists'.mp hsome
    exact hnot (List.mem_map_of_mem (h.mem_queue hsound hparent hw))

theorem SimulatesWith.drains (hσ : Simulates world σ) (hgood : Good True σ.tables)
    (core : Addr) (n : ℕ)
    (hn : (σ.tables core).live.length = n) : world.Drains debug core n := by
  have hsound := fun c => (hgood.quiet c).toSound
  induction n generalizing world σ with
  | zero =>
      intro p hp
      obtain ⟨l, hl⟩ := hσ.models.exists_lock hp
      have hmem := ((hsound core).mem_live p).mpr ⟨l, hl⟩
      rw [List.length_eq_zero_iff.mp hn] at hmem
      exact List.not_mem_nil hmem
  | succ n ih =>
      constructor
      · have hlive : (σ.tables core).live ≠ [] := by
          intro hnil
          rw [hnil] at hn
          cases hn
        obtain ⟨p, l, hl, hp⟩ := (hgood.quiet core).exists_complete hlive
        exact ⟨p, (hσ.models.complete_iff hsound).mpr ⟨⟨l, hl⟩, hp⟩⟩
      · intro p hp
        obtain ⟨⟨l, hl⟩, hnot⟩ := (hσ.models.complete_iff hsound).mp hp
        obtain ⟨reply, w, hrun, hw, rfl⟩ := unlock_returns hσ hgood
          (fun (_ : debug = true) => trivial) core p hl
        have hstep : System.Step False Nonempty σ _ := .unlock core p hl
        have hgood' : Good True _ := hstep.good admissible_of_nonempty hgood
        have hlength : ((σ.unlock core p).tables core).live.length = n := by
          have hmem := ((hsound core).mem_live p).mpr ⟨l, hl⟩
          have herase : ((σ.tables core).live.filter fun q => q ≠ p) =
              (σ.tables core).live.erase p := by
            rw [(hsound core).live_nodup.erase_eq_filter]
            refine List.filter_congr fun q _ => ?_
            by_cases hq : q = p
            · simp [hq]
            · simp [hq]
          rw [System.unlock_tables, Function.update_self, Table.unlock_live, herase,
            List.length_erase_of_mem hmem, hn, Nat.add_sub_cancel]
        refine ⟨w, ?_, ih hw hgood' hlength fun c => (hgood'.quiet c).toSound⟩
        rw [hrun, Table.waiting_eq_none hnot]

/-- Nobody waits for himself, not even through others.  If a lock is live, one is complete.
Unlocking complete locks, in whatever order, takes as many calls as there are live locks, and leaves
none. -/
theorem World.Run.deadlock_free (run : World.Run debug misuse Nonempty world) (core : Addr) :
    (∀ p, ¬ Relation.TransGen (world.store.WaitsFor core) p p) ∧
    ((∃ p, world.store.parent p = some core) → ∃ p, world.store.Complete core p) ∧
    ∃ live : List LockPtr, live.Nodup ∧ (∀ p, p ∈ live ↔ world.store.parent p = some core) ∧
      world.Drains debug core live.length := by
  obtain ⟨σ, hσ, -, hgood⟩ := run.system
  have hsound := fun c => (hgood.quiet c).toSound
  have hlive : ∀ p, p ∈ (σ.tables core).live ↔ world.store.parent p = some core := by
    intro p
    rw [(hsound core).mem_live, hσ.models.live_iff]
  refine ⟨fun p hcycle => ?_, ?_, (σ.tables core).live, (hsound core).live_nodup, hlive,
    hσ.drains hgood core _ rfl⟩
  · have hreach : ∀ q, Relation.TransGen (world.store.WaitsFor core) p q →
        (σ.tables core).reach p < (σ.tables core).reach q := by
      intro q hpq
      induction hpq with
      | single h => exact hσ.models.reach_lt hsound h
      | tail _ h ih => exact ih.trans (hσ.models.reach_lt hsound h)
    exact lt_irrefl _ (hreach p hcycle)
  · rintro ⟨p, hp⟩
    obtain ⟨q, l, hl, hq⟩ := (hgood.quiet core).exists_complete
      (List.ne_nil_of_mem ((hlive p).mpr hp))
    exact ⟨q, (hσ.models.complete_iff hsound).mpr ⟨⟨l, hl⟩, hq⟩⟩

theorem deadlock_free_tour :
    (∀ p, ¬ Relation.TransGen ((World.after true tour).store.WaitsFor (slot 0)) p p) ∧
    ((∃ p, (World.after true tour).store.parent p = some (slot 0)) →
      ∃ p, (World.after true tour).store.Complete (slot 0) p) ∧
    ∃ live : List LockPtr, live.Nodup ∧
      (∀ p, p ∈ live ↔ (World.after true tour).store.parent p = some (slot 0)) ∧
      (World.after true tour).Drains true (slot 0) live.length :=
  (tour_run False).deadlock_free (slot 0)

end Reachable

end Interlock.Core
