import Interlock.Core.History
import Interlock.Core.Run

/-!
# What a store shows

The notions in which the properties of the core are stated, read off the nodes in the memory, and
what they are for a store that holds tables.
-/

namespace Interlock.Core

open Memory RbTree

variable {Index Priority InProgress : Type}

namespace Store
variable (store : Store Index Priority InProgress)

/-- The region that a lock state holds: the range of its `WriteNode`, or what is between its pair of
`ReadNode`s. -/
def region (p : LockPtr) : Option (Range Index) :=
  if p.kind.isWrite then (store.write.get p).map (·.element)
  else do
    let lower ← store.read.get (p, false)
    let upper ← store.read.get (p, true)
    return ⟨lower.element.1, upper.element.1⟩

/-- The request of a pending lock. -/
def waiter (p : LockPtr) : Option (Pending Index Priority InProgress) :=
  (store.pending.get p).map (·.element)

/-- The nodes of `pendings`, in order. -/
def Queue (core : Addr) (seq : List (LockPtr × Pending Index Priority InProgress)) : Prop :=
  InOrder store.pending (store.pendings core) seq

variable [LinearOrder Index]

/-- The lock `p` of `core` holds `i`. -/
def Holds (core : Addr) (p : LockPtr) (i : Index) : Prop :=
  store.parent p = some core ∧ ∃ r, store.region p = some r ∧ r.start ≤ i ∧ i < r.stop

/-- Another lock of `core` keeps `p` from holding `i`. -/
def BlockedAt (core : Addr) (p : LockPtr) (i : Index) : Prop :=
  ∃ q, q ≠ p ∧ conflicting p q ∧ store.Holds core q i

end Store

/-- The ranges that the code's `debug_assert` lets pass. -/
def Nonempty [LinearOrder Index] (_ : LockPtr) (range : Range Index) : Prop :=
  range.start < range.stop

variable [LinearOrder Index] [LinearOrder Priority]

theorem admissible_of_nonempty (p : LockPtr) (range : Range Index) (h : Nonempty p range) :
    Table.Admissible True p range := ⟨h.le, fun _ => h⟩

section Models
variable {tables : Tables Index Priority InProgress} {store : Store Index Priority InProgress}
  {core : Addr} {p : LockPtr} {l : Lock Index} {i : Index} {strict : Prop}
  {x : LockPtr × Pending Index Priority InProgress} {w : Pending Index Priority InProgress}

theorem ModelsWith.live_iff (h : Models tables store) :
    store.parent p = some core ↔ ∃ l, (tables core).locks p = some l :=
  h.parents.tabled p core rfl

theorem ModelsWith.exists_lock (h : Models tables store) (hp : store.parent p = some core) :
    ∃ l, (tables core).locks p = some l := h.live_iff.mp hp

theorem ModelsWith.region_eq (h : Models tables store) (hl : (tables core).locks p = some l) :
    store.region p = l.held.map fun e => ⟨l.start, e⟩ := by
  cases hheld : l.held with
  | none =>
      cases hp : p.kind.isWrite with
      | true => simp [Store.region, hp, h.regions.write_eq_none hl hheld]
      | false => simp [Store.region, hp, h.regions.read_eq_none hl hheld]
  | some e =>
      cases hp : p.kind.isWrite with
      | true =>
          obtain ⟨n, hn, helement⟩ := Indexed.get h.writes (Table.writeEntry_self hl hp hheld)
          simp [Store.region, hp, hn, helement]
      | false =>
          obtain ⟨hlower, hupper⟩ := Table.readEntry_self hl hp hheld
          obtain ⟨n₀, hn₀, helement₀⟩ := Indexed.get h.reads hlower
          obtain ⟨n₁, hn₁, helement₁⟩ := Indexed.get h.reads hupper
          simp [Store.region, hp, hn₀, hn₁, helement₀, helement₁]

theorem ModelsWith.region_eq_none (h : Models tables store) (hp : ¬ InUse tables p) :
    store.region p = none := by
  have hnone : ∀ c l, (tables c).locks p = some l → l.held = none :=
    fun c l hl => absurd ⟨c, l, hl⟩ hp
  cases hkind : p.kind.isWrite with
  | true => simp [Store.region, hkind, h.regions.get_write_eq_none rfl hnone]
  | false => simp [Store.region, hkind, h.regions.get_read_eq_none rfl hnone]

/-- What the tables say of a lock settles its parent and its region. -/
theorem ModelsWith.lock_congr {tables' : Tables Index Priority InProgress}
    {store' : Store Index Priority InProgress} (h : Models tables store)
    (h' : Models tables' store') (hp : ∀ c, (tables' c).locks p = (tables c).locks p) :
    store'.parent p = store.parent p ∧ store'.region p = store.region p := by
  constructor
  · refine Option.ext fun c => ?_
    rw [h.live_iff, h'.live_iff, hp]
  · by_cases hused : InUse tables p
    · obtain ⟨c, l, hl⟩ := hused
      rw [h.region_eq hl, h'.region_eq ((hp c).trans hl)]
    · have hused' : ¬ InUse tables' p := by
        rintro ⟨c, l, hl⟩
        exact hused ⟨c, l, (hp c).symm.trans hl⟩
      rw [h.region_eq_none hused, h'.region_eq_none hused']

theorem ModelsWith.holds_iff (h : Models tables store) :
    store.Holds core p i ↔ ∃ l, (tables core).locks p = some l ∧ l.Holds i := by
  constructor
  · rintro ⟨hp, r, hr, hstart, hstop⟩
    obtain ⟨l, hl⟩ := h.exists_lock hp
    rw [h.region_eq hl] at hr
    obtain ⟨e, he, rfl⟩ := Option.map_eq_some_iff.mp hr
    exact ⟨l, hl, Lock.holds_iff.mpr ⟨e, he, hstart, hstop⟩⟩
  · rintro ⟨l, hl, hi⟩
    obtain ⟨e, he, hstart, hstop⟩ := Lock.holds_iff.mp hi
    exact ⟨h.live_iff.mpr ⟨l, hl⟩, ⟨l.start, e⟩, by rw [h.region_eq hl, he]; rfl, hstart, hstop⟩

theorem ModelsWith.blockedAt_iff (h : Models tables store) :
    store.BlockedAt core p i ↔ ¬ (tables core).Free p i := by
  simp only [Store.BlockedAt, Table.Free, h.holds_iff, not_forall, not_not]
  constructor
  · rintro ⟨q, hne, hconf, l, hl, hi⟩
    exact ⟨q, l, hne, hl, hconf, hi⟩
  · rintro ⟨q, l, hne, hl, hconf, hi⟩
    exact ⟨q, hne, hconf, l, hl, hi⟩

theorem ModelsWith.waiter_eq (h : Models tables store) (hx : x ∈ (tables core).queue) :
    store.waiter x.1 = some x.2 := by
  obtain ⟨n, hn, helement⟩ := h.pending_eq_some hx
  simp [Store.waiter, hn, helement]

theorem ModelsWith.waiter_iff (h : Models tables store) :
    store.waiter p = some w ↔ ∃ c, (p, w) ∈ (tables c).queue := by
  constructor
  · intro hw
    have hlive : (store.pending.get p).isSome := by
      cases hp : store.pending.get p with
      | none => simp [Store.waiter, hp] at hw
      | some n => rfl
    obtain ⟨c, hc⟩ := ((h.pendings.live p).mp hlive).resolve_left List.not_mem_nil
    obtain ⟨x, hx, rfl⟩ := List.mem_map.mp hc
    obtain rfl := Option.some.inj (hw.symm.trans (h.waiter_eq hx))
    exact ⟨c, hx⟩
  · rintro ⟨c, hx⟩
    exact h.waiter_eq hx

theorem ModelsWith.waiter_eq_none (h : Models tables store)
    (hp : ∀ c, p ∉ (tables c).queue.map Prod.fst) : store.waiter p = none := by
  rw [Store.waiter, h.pending_eq_none rfl hp, Option.map_none]

theorem ModelsWith.waiter_congr {tables' : Tables Index Priority InProgress}
    {store' : Store Index Priority InProgress} (h : Models tables store)
    (h' : Models tables' store') (hqueue : ∀ c, (tables' c).queue = (tables c).queue) :
    store'.waiter p = store.waiter p := by
  refine Option.ext fun w => ?_
  rw [h.waiter_iff, h'.waiter_iff]
  exact exists_congr fun c => by rw [hqueue]

/-- A waiter is in the queue of the core that has claimed it. -/
theorem ModelsWith.mem_queue (h : Models tables store) (hsound : ∀ c, (tables c).Sound strict)
    (hp : store.parent p = some core) (hw : store.waiter p = some w) :
    (p, w) ∈ (tables core).queue := by
  obtain ⟨c, hx⟩ := h.waiter_iff.mp hw
  obtain ⟨l, hl, -⟩ := (hsound c).exists_lock hx
  obtain rfl : core = c := Option.some.inj (hp.symm.trans (h.live_iff.mpr ⟨l, hl⟩))
  exact hx

theorem ModelsWith.parent_of_waiter (h : Models tables store)
    (hsound : ∀ c, (tables c).Sound strict)
    (hw : store.waiter p = some w) : ∃ c, store.parent p = some c ∧ (p, w) ∈ (tables c).queue := by
  obtain ⟨c, hx⟩ := h.waiter_iff.mp hw
  obtain ⟨l, hl, -⟩ := (hsound c).exists_lock hx
  exact ⟨c, h.live_iff.mpr ⟨l, hl⟩, hx⟩

theorem ModelsWith.queue (h : Models tables store) (core : Addr) :
    store.Queue core (tables core).queue := (Forest.linked h.pendings core).inOrder

theorem ModelsWith.queue_iff (h : Models tables store)
    {seq : List (LockPtr × Pending Index Priority InProgress)} :
    store.Queue core seq ↔ seq = (tables core).queue := by
  constructor
  · exact fun hseq => hseq.unique (h.queue core)
  · rintro rfl
    exact h.queue core

end Models

/-! ## Logs -/

section Logs
variable {log : Log Index Priority InProgress}
  {log' : List (Event Index Priority InProgress (Tables Index Priority InProgress))}

theorem SameLogWith.requested (h : SameLog log log') (p : LockPtr) :
    requested p log = requested p log' := by
  induction h with
  | nil => rfl
  | cons hevent _ ih =>
      cases hevent with
      | returned call reply _ =>
          cases call with
          | lock =>
              cases reply <;> simp only [Core.requested, ih]
          | tryLock =>
              cases reply with
              | locked complete => cases complete <;> simp only [Core.requested, ih]
              | _ => exact ih
          | unlock => simp only [Core.requested, ih]
          | inspect => exact ih
      | _ => exact ih

theorem SameLogWith.completions (h : SameLog log log') : completions log = completions log' := by
  induction h with
  | nil => rfl
  | cons hevent _ ih => cases hevent <;> simpa [Core.completions] using ih

/-- An event in memory is one of tables. -/
theorem SameLogWith.of_append {pre post : Log Index Priority InProgress}
    {event : Event Index Priority InProgress (Store Index Priority InProgress)}
    (h : SameLog (pre ++ event :: post) log') : ∃ pre' event' post',
      log' = pre' ++ event' :: post' ∧
        Event.Related (fun store tables => Models tables store) event event' ∧
          SameLog post post' := by
  induction pre generalizing log' with
  | nil =>
      cases h with
      | cons hevent hlog => exact ⟨[], _, _, rfl, hevent, hlog⟩
  | cons e pre ih =>
      cases h with
      | cons _ hlog =>
          obtain ⟨pre', event', post', rfl, hevent, hpost⟩ := ih hlog
          exact ⟨_ :: pre', event', post', rfl, hevent, hpost⟩

omit [LinearOrder Index] [LinearOrder Priority] in
theorem resumption_eq_some {Mem : Type} {log : List (Event Index Priority InProgress Mem)}
    {event : Event Index Priority InProgress Mem} {r : Resumption Index Priority InProgress Mem}
    (h : resumption event log = some r) :
    event = .resumed r.lock r.after ∧ Resumes r.lock r.before r.log log := by
  unfold resumption at h
  split at h
  · split at h
    · next heq =>
        obtain rfl := Option.some.inj h
        exact ⟨rfl, Or.inl (by rw [heq])⟩
    · cases h
  · split at h
    · next heq =>
        obtain rfl := Option.some.inj h
        exact ⟨rfl, Or.inr ⟨_, _, _, by rw [heq]⟩⟩
    · cases h
  · cases h

omit [LinearOrder Index] [LinearOrder Priority] in
theorem mem_resumptions {Mem : Type} {log : List (Event Index Priority InProgress Mem)}
    {r : Resumption Index Priority InProgress Mem} (hr : r ∈ resumptions log) :
    ∃ pre post, log = pre ++ .resumed r.lock r.after :: post ∧
      Resumes r.lock r.before r.log post := by
  induction log with
  | nil => exact absurd hr List.not_mem_nil
  | cons event log ih =>
      rw [resumptions, List.mem_append, Option.mem_toList] at hr
      rcases hr with hr | hr
      · obtain ⟨rfl, hresumes⟩ := resumption_eq_some hr
        exact ⟨[], log, rfl, hresumes⟩
      · obtain ⟨pre, post, rfl, hresumes⟩ := ih hr
        exact ⟨event :: pre, post, rfl, hresumes⟩

omit [LinearOrder Index] [LinearOrder Priority] in
/-- A memory that an event shows has tables behind it. -/
theorem Event.Related.exists_mem {Mem Mem' : Type} {R : Mem → Mem' → Prop}
    {event : Event Index Priority InProgress Mem} {event' : Event Index Priority InProgress Mem'}
    (h : Event.Related R event event') {mem : Mem} (hmem : event.mem = some mem) :
    ∃ mem', event'.mem = some mem' ∧ R mem mem' := by
  cases h with
  | complete _ _ h | resuming _ h | resumed _ h | returned _ _ h =>
      obtain rfl := Option.some.inj hmem
      exact ⟨_, rfl, h⟩
  | inProgress | lockComplete | panicked => cases hmem

end Logs

/-- The store, or what it was like at an earlier event. -/
def World.Shown (world : World Index Priority InProgress)
    (store : Store Index Priority InProgress) :
    Prop :=
  store = world.store ∨ ∃ event ∈ world.log, event.mem = some store

section Reachable
variable {debug : Bool} {misuse : Prop} {world : World Index Priority InProgress}
  {σ : System Index Priority InProgress} {store : Store Index Priority InProgress}

/-- The tables of a world that a run with non-empty ranges reaches. -/
theorem World.Run.system (run : World.Run debug misuse Nonempty world) :
    ∃ σ, Simulates world σ ∧ System.Run misuse Nonempty σ ∧ Good True σ.tables := by
  obtain ⟨σ, hσ, hrun⟩ := run.simulates admissible_of_nonempty fun _ => trivial
  exact ⟨σ, hσ, hrun, hrun.good admissible_of_nonempty⟩

theorem World.Run.shown (run : World.Run debug misuse Nonempty world) (h : world.Shown store) :
    ∃ tables, Models tables store ∧ ∀ c, (tables c).Sound True := by
  obtain ⟨σ, hσ, hrun, hgood⟩ := run.system
  rcases h with rfl | ⟨event, hevent, hmem⟩
  · exact ⟨σ.tables, hσ.models, fun c => (hgood.quiet c).toSound⟩
  · obtain ⟨pre, post, hlog⟩ := List.append_of_mem hevent
    obtain ⟨pre', event', post', hlog', hrelated, -⟩ := SameLogWith.of_append (hlog ▸ hσ.log)
    obtain ⟨tables, hmem', hmodels⟩ := hrelated.exists_mem hmem
    have hsound := hrun.sound_events admissible_of_nonempty
    rw [hlog'] at hsound
    exact ⟨tables, hmodels, hsound.of_append tables hmem'⟩

end Reachable

/-! ### A run -/

/-- Places for objects. -/
def slot (n : Fin 100) : Addr := ⟨n + 1, n.val.succ_pos, by omega⟩

/-- On one core a writer holds `0..10`, a reader and a writer wait for it at 5, and a reader that
does not wait holds `30..40`. -/
def tour : List (Call ℕ ℕ ℕ) :=
  [.lock true (slot 0) (slot 1) ⟨0, 10⟩ 0 100, .lock false (slot 0) (slot 2) ⟨5, 15⟩ 1 101,
    .lock true (slot 0) (slot 3) ⟨5, 20⟩ 2 102, .tryLock false (slot 0) (slot 4) ⟨30, 40⟩]

theorem tour_run (misuse : Prop) : World.Run true misuse Nonempty (World.after true tour) := by
  refine World.run_after (fun call hcall => ?_) (by decide +kernel)
  simp only [tour, List.mem_cons, List.not_mem_nil, or_false] at hcall
  rcases hcall with rfl | rfl | rfl | rfl
  · exact (by decide : 0 < 10)
  · exact (by decide : 5 < 15)
  · exact (by decide : 5 < 20)
  · exact (by decide : 30 < 40)

/-- A writer holds `0..10`; a reader, a writer and another reader wait for it at 5, in this order of
priority; and the first writer is unlocked. -/
def handover : List (Call ℕ ℕ ℕ) :=
  [.lock true (slot 0) (slot 1) ⟨0, 10⟩ 0 100, .lock false (slot 0) (slot 2) ⟨5, 15⟩ 3 101,
    .lock true (slot 0) (slot 3) ⟨5, 20⟩ 2 102, .lock false (slot 0) (slot 4) ⟨5, 15⟩ 1 103,
    .unlock (slot 0) (lockPtr true (slot 1))]

theorem handover_run (misuse : Prop) :
    World.Run true misuse Nonempty (World.after true handover) := by
  refine World.run_after (fun call hcall => ?_) (by decide +kernel)
  simp only [handover, List.mem_cons, List.not_mem_nil, or_false] at hcall
  rcases hcall with rfl | rfl | rfl | rfl | rfl
  · exact (by decide : 0 < 10)
  · exact (by decide : 5 < 15)
  · exact (by decide : 5 < 20)
  · exact (by decide : 5 < 15)
  · trivial

end Interlock.Core
