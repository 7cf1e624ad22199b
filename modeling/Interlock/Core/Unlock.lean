import Interlock.Core.Simulation

/-!
# Unlocking on memory and on tables

The second half of the simulation: `resume_borrow`, the loop of `unlock_*_inner` that shrinks the
region of a lock and resumes its waiters, and the operations around it.

What the loop does depends on what the searches of `resume_borrow` find, and they are exact only
where no range is empty.  So the loop is done once, for whatever they find.  `resumeBorrow_at` says
that `resume_borrow` does what its searches tell it to do, and `Shrinks` is the part of a round that
readers and writers do in their own way.  A property `Inv` of the tables and of the waiters still to
be visited is an invariant of the loop if `Visits` holds of it, that is, if one round keeps it for
every outcome of the searches; `unlockLoop_at` then follows by induction on these waiters.  The
operations around the loop carry `Inv` to the end of an unlock call.

With exact searches, `Inv` is `ReleasesTo`: the rounds to come lead to the tables to which the loop
of the tables leads.  This gives the simulation.  The invariant for any ranges is in `Unchecked`.
-/

namespace Interlock.Core

open Memory RbTree

variable {Index Priority InProgress : Type} [LinearOrder Index] [LinearOrder Priority]

section Parts
variable {debug : Bool} {strict : Prop} {core : Addr} {stray : Stray}
  {store : Store Index Priority InProgress}
  {log : Log Index Priority InProgress} {world : World Index Priority InProgress}
  {tables : Tables Index Priority InProgress} {σ : System Index Priority InProgress}
  {p : LockPtr} {l : Lock Index} {s' : Table Index Priority InProgress} {held : Option Index}
  {e i stop : Index} {range : Range Index} {x : LockPtr × Pending Index Priority InProgress}

omit [LinearOrder Index] [LinearOrder Priority] in
theorem System.put_self (σ : System Index Priority InProgress) :
    σ.put core (σ.tables core) = σ := by
  rw [System.put, Function.update_eq_self]

/-! ## Resumption -/

/-- The searches of `resume_borrow` leave the memory alone, and `found` holds of what they find. -/
def Searches (debug : Bool) (core : Addr) (p : LockPtr) (range : Range Index)
    (world : World Index Priority InProgress) (found : Option Index → Prop) : Prop :=
  Runs (firstWriteBorrowInRange core range) world fun r w =>
    Runs (if p.kind.isWrite then firstReadBorrowInRange debug core range else pure none) w
      fun r' w => w = world ∧ found (lowerConflict r r')

theorem resumeSearch_spec (h : ModelsWith stray tables store) (hsound : (tables core).Sound strict)
    (hdebug : debug = true → strict) (hrange : p.kind.isWrite = true → range.start < range.stop) :
    Searches debug core p range (⟨store, log⟩ : World Index Priority InProgress)
      (· = (tables core).firstConflict p range) := by
  unfold Searches
  cases hp : p.kind.isWrite with
  | true =>
      refine (firstConflict_write_spec h.writes h.reads hsound hdebug (hrange hp) hp).mono ?_
      rintro r w ⟨rfl, hr⟩
      simpa using hr
  | false =>
      refine (firstConflict_read_spec h.writes hsound hp).mono ?_
      rintro r w ⟨rfl, rfl⟩
      simp [lowerConflict_none_right]

/-- A waiter looks for a conflict where it waits. -/
theorem Table.Sound.search (hsound : (tables core).Sound strict) (h : ModelsWith stray tables store)
    (hdebug : debug = true → strict) (hx : x ∈ (tables core).queue) :
    Searches debug core x.1 x.2.range (⟨store, log⟩ : World Index Priority InProgress)
      (· = (tables core).firstConflict x.1 x.2.range) := by
  obtain ⟨l, hl, hrange, hwf, hlt⟩ := hsound.exists_lock hx
  refine resumeSearch_spec h hsound hdebug fun hw => ?_
  rw [hrange]
  exact hlt (hwf.nonempty (Or.inr hw))

/-- Moving a waiter: its node is removed, overwritten and inserted again. -/
theorem movePending_spec (h : ModelsWith stray tables store) (hlinked : (tables core).WellLinked)
    (hx : x ∈ (tables core).queue) (i : Index) :
    Runs (onPendings core (Node.remove debug pendingNodeCallback x.1)) ⟨store, log⟩ fun _ w =>
      Runs (onPendings core (Node.modifyNode x.1 fun n =>
        { n with element := { n.element with range := { n.element.range with start := i } } })) w
        fun _ w => Runs (onPendings core (Node.insert debug pendingNodeCallback x.1)) w fun _ w =>
          ∃ store', w = ⟨store', log⟩ ∧ ModelsWith stray
            (Function.update tables core (((tables core).dequeue x.1).enqueue (Table.moveTo x i)))
            store' := by
  refine (removePending_spec h.pendings hx).mono ?_
  rintro _ _ ⟨mem, n, rfl, hforest, hn, helement⟩
  simp only [runs_onPendings, Store.setPendingTree_pendings, Function.update_self,
    Store.setPendingTree_pending, runs_modifyNode, hn, Option.some.injEq, exists_eq_left']
  set n' : PendingNode Index Priority InProgress :=
    { n with element := { n.element with range := { n.element.range with start := i } } } with hn'
  have hmoved : (x.1, n'.element) = Table.moveTo x i := by rw [hn', helement]; rfl
  have hsorted : (removeSeq x.1 (tables core).queue).Pairwise fun x y => pendingLe x.2 y.2 :=
    (hlinked.dequeue x.1).sorted
  have hinsert : Runs (Node.insert debug pendingNodeCallback x.1)
      ⟨Function.update store.pendings core mem.tree core, mem.heap.set x.1 n'⟩ _ :=
    (hforest.write List.mem_cons_self n').insert (Heap.get_set_self _ _ _) rfl
      pendingNodeCallback_consistent (by simpa only [Function.update_self] using hsorted)
  simp only [Function.update_self, Function.update_idem, hmoved] at hinsert
  refine hinsert.mono ?_
  rintro _ mem' ⟨hforest', -⟩
  refine ⟨_, by rw [Store.setPendingTree_idem, Store.setPendingTree_idem], ?_⟩
  exact h.of_pendings rfl (PendingsModel.of_forest hforest' rfl)

/-- Completing a waiter takes its node out of the tree and out of its lock state. -/
theorem completePending_spec (h : ModelsWith stray tables store) (hx : x ∈ (tables core).queue) :
    Runs (onPendings core (Node.remove debug pendingNodeCallback x.1))
      (⟨store, log⟩ : World Index Priority InProgress) fun _ w =>
        Runs (hasPendingNode x.1) w fun pending w => pending = true ∧
          Runs (takePending core x.1) w fun n w => n.element = x.2 ∧
            ∃ store', w = ⟨store', log⟩ ∧
              ModelsWith stray (Function.update tables core ((tables core).dequeue x.1))
                store' := by
  refine (removePending_spec h.pendings hx).mono ?_
  rintro _ _ ⟨mem, n, rfl, hforest, hn, helement⟩
  simp only [hasPendingNode, runs_bind, runs_getStore, runs_pure, Store.setPendingTree_pending, hn,
    Option.isSome_some, true_and]
  refine (takePending_spec hforest hn).mono ?_
  rintro _ _ ⟨rfl, mem', rfl, hforest'⟩
  exact ⟨helement, _, rfl, h.of_pendings rfl (PendingsModel.of_forest hforest' rfl)⟩

/-- The end of `resume_borrow`, when the waiters are in order. -/
theorem expand_models {s : Table Index Priority InProgress}
    (h : ModelsWith stray (Function.update tables core s) store)
    (hsets : s.SetsHeld s' p l (some e))
    (hqueue : s'.queue = s.queue) : store.parent p = some core ∧
      Runs (if p.kind.isWrite then expandWrite debug core p l.pos e
        else expandRead debug core p l.pos e) (⟨store, log⟩ : World Index Priority InProgress)
        fun _ w => ∃ store', w = ⟨store', log⟩ ∧
          ModelsWith stray (Function.update tables core s') store' := by
  have hsets' : (Function.update tables core s core).SetsHeld s' p l (some e) := by
    rwa [Function.update_self]
  have hqueue' : s'.queue = (Function.update tables core s core).queue := by
    rwa [Function.update_self]
  refine ⟨h.parent_eq hsets'.1, (expand_region h.regions hsets').mono fun _ w hw => ?_⟩
  simpa only [Function.update_idem] using ModelsWith.of_regionsChange h.pendings hqueue' hw

omit [LinearOrder Index] [LinearOrder Priority] in
theorem setsHeld_setHeld {s t : Table Index Priority InProgress} (hl : s.locks p = some l)
    (ht : t.locks = (s.setHeld p held).locks) : s.SetsHeld t p l held := by
  refine ⟨hl, fun q => ?_⟩
  rw [ht, Table.setHeld_locks _ _ _ _ hl]

/-- `resume_borrow` does what its searches tell it to do. -/
theorem resumeBorrow_at {found : Option Index → Prop} (h : SimulatesWith stray world σ)
    (hlinked : (σ.tables core).WellLinked) (hx : x ∈ (σ.tables core).queue)
    (hsearch : Searches debug core x.1 x.2.range world found) :
    Runs (resumeBorrow debug core x.1) world fun _ w =>
      ∃ r, found r ∧ SimulatesWith stray w (σ.resumeAt core x r) := by
  obtain ⟨store, log⟩ := world
  obtain ⟨hparent, -, l, hl, hrange⟩ := hlinked.queued x hx
  have hstart : x.2.range.start = l.pos := by rw [hrange]
  simp only [resumeBorrow, runs_bind]
  refine runs_loadPending h.models.pendings hx fun n hn => ?_
  simp only [hn, hparent]
  refine hsearch.mono ?_
  rintro r w hr
  refine hr.mono ?_
  rintro r' w ⟨rfl, hfound⟩
  generalize lowerConflict r r' = conflict at hfound
  rcases (σ.tables core).resumeAt_cases x conflict with ⟨rfl, hresume⟩ | ⟨i, rfl, hi, hresume⟩ |
    ⟨rfl, hresume⟩
  · -- No progress
    have hself : σ.resumeAt core x (some x.2.range.start) = σ := by
      simp only [System.resumeAt, hresume, System.put_self]
    rw [if_pos rfl, runs_pure]
    exact ⟨_, hfound, by rwa [hself]⟩
  · have hne : ¬ some i = some x.2.range.start := by simpa using hi
    rw [if_neg hne]
    simp only [runs_bind, Option.getD_some]
    refine (movePending_spec h.models hlinked hx i).mono fun _ _ h₁ => h₁.mono fun _ _ h₂ =>
      h₂.mono ?_
    rintro _ _ ⟨store₁, rfl, h₁⟩
    have hl₁ : (((σ.tables core).dequeue x.1).enqueue (Table.moveTo x i)).locks x.1 = some l := hl
    have hsets : Table.SetsHeld _ ((σ.tables core).resumeAt x (some i)) x.1 l (some i) :=
      setsHeld_setHeld hl₁ (by rw [hresume]; rfl)
    obtain ⟨hparent₁, hexpand⟩ := expand_models h₁ hsets (by rw [hresume]; rfl)
    simp only [runs_getStore, runs_debugAssert, hparent₁, beq_self_eq_true, implies_true, true_and]
    rw [hstart]
    refine hexpand.mono ?_
    rintro _ _ ⟨store₂, rfl, h₂⟩
    exact ⟨some i, hfound, h₂, h.log⟩
  · -- The waiter is complete
    rw [if_neg (by simp)]
    simp only [runs_bind, Option.getD_none]
    refine (completePending_spec h.models hx).mono fun _ _ h₁ => h₁.mono ?_
    rintro _ _ ⟨rfl, h₁⟩
    simp only [runs_debugAssert, beq_self_eq_true, Bool.and_self, implies_true, true_and]
    refine h₁.mono ?_
    rintro n _ ⟨hn, store₁, rfl, h₁⟩
    have hl₁ : ((σ.tables core).dequeue x.1).locks x.1 = some l := hl
    have hstop : x.2.range.stop = l.stop := by rw [hrange]
    have hsets : Table.SetsHeld _ ((σ.tables core).resumeAt x none) x.1 l (some l.stop) :=
      setsHeld_setHeld hl₁ (by rw [hresume, hstop])
    obtain ⟨hparent₁, hexpand⟩ := expand_models h₁ hsets (by rw [hresume]; rfl)
    simp only [runs_getStore, runs_record, hparent₁, beq_self_eq_true,
      implies_true, true_and]
    rw [hstart, hstop]
    refine hexpand.mono ?_
    rintro _ _ ⟨store₂, rfl, h₂⟩
    refine ⟨none, hfound, ?_, ?_⟩
    · simpa only [System.resumeAt, System.put_tables, System.note_tables, Function.update_idem]
        using h₂
    · simp only [System.resumeAt, System.put_log, System.note_log, hn]
      exact List.Forall₂.cons (.complete x.1 x.2.inProgress h₁) h.log

/-! ## Unlocking -/

/-- The part of a round that shrinks the region of `p`. -/
def Shrinks (core : Addr) (p : LockPtr) (start : Index)
    (shrink : Index → Index → CoreM Index Priority InProgress (Bool × Index)) : Prop :=
  ∀ stray world σ l index stop, SimulatesWith stray world σ → (σ.tables core).locks p = some l →
    l.start = start → l.held = some stop → start < stop → start ≤ index → index ≤ stop →
    Runs (shrink index stop) world fun r w =>
      SimulatesWith stray w (σ.put core ((σ.tables core).truncate p index)) ∧
        r = if index = start then (true, stop) else (false, index)

omit [LinearOrder Priority] in
theorem Table.truncate_eq_setHeld {s : Table Index Priority InProgress} (hl : s.locks p = some l)
    (hheld : l.held = some e) :
    s.truncate p i = s.setHeld p (if i = l.start then none else some i) := by
  rw [Table.truncate, hl]
  simp [hheld]

omit [LinearOrder Index] [LinearOrder Priority] in
theorem Table.setHeld_self {s : Table Index Priority InProgress} (hl : s.locks p = some l) :
    s.setHeld p l.held = s := by
  have hlocks : (s.setHeld p l.held).locks = s.locks := by
    funext q
    rw [Table.setHeld_locks _ _ _ _ hl]
    split
    · next hqp => rw [hqp, hl]
    · rfl
  calc s.setHeld p l.held = ⟨(s.setHeld p l.held).locks, s.live, s.queue⟩ := rfl
    _ = s := by rw [hlocks]

/-- A program that changes the region of `p` only. -/
theorem SimulatesWith.setHeld {α : Type} {m : CoreM Index Priority InProgress α}
    (h : SimulatesWith stray world σ) (hm : Runs m world fun _ w => RegionsChange stray
      (Function.update σ.tables core ((σ.tables core).setHeld p held)) world.store world.log w) :
    Runs m world fun _ w =>
      SimulatesWith stray w (σ.put core ((σ.tables core).setHeld p held)) := by
  refine hm.mono fun _ w hw => ?_
  have hqueue : ((σ.tables core).setHeld p held).queue = (σ.tables core).queue := rfl
  obtain ⟨store', rfl, hmodels⟩ := ModelsWith.of_regionsChange h.models.pendings hqueue hw
  exact ⟨hmodels, h.log⟩

theorem shrinkRead_shrinks (debug : Bool) (hp : p.kind.isWrite = false) (start : Index) :
    Shrinks core p start (shrinkRead debug core p start :
      Index → Index → CoreM Index Priority InProgress (Bool × Index)) := by
  intro stray world σ l index stop h hl hstart hheld hlt hle hle'
  have hsets : ∀ held, (σ.tables core).SetsHeld ((σ.tables core).setHeld p held) p l held :=
    fun held => setsHeld_setHeld hl rfl
  rw [Table.truncate_eq_setHeld hl hheld, hstart]
  unfold shrinkRead
  split
  · next hstop =>
      -- Nothing is left to unborrow above the waiter
      have hne : index ≠ start := (hstop ▸ hlt).ne'
      rw [if_neg hne, if_neg hne, hstop, ← hheld, Table.setHeld_self hl, System.put_self]
      simpa using h
  · split
    · next hindex =>
        have hremove := h.setHeld (removeReadNodes_region debug h.models.regions
          (hsets none) hp hheld true)
        simp only [runs_bind, runs_pure, Bool.not_true] at hremove ⊢
        exact hremove.mono fun _ _ h₁ => h₁.mono fun _ _ h₂ => h₂.mono fun _ _ h₃ => ⟨h₃, trivial⟩
    · next hindex =>
        simp only [runs_bind, runs_pure]
        have hmove := h.setHeld (moveReadEnd_region debug h.models.regions
          (hsets (some index)) hp hheld)
        exact hmove.mono fun _ _ h₁ => ⟨h₁, trivial⟩

theorem shrinkWrite_shrinks (debug : Bool) (hp : p.kind.isWrite = true) (start : Index) :
    Shrinks core p start (shrinkWrite debug core p start :
      Index → Index → CoreM Index Priority InProgress (Bool × Index)) := by
  intro stray world σ l index stop h hl hstart hheld hlt hle hle'
  have hsets : ∀ held, (σ.tables core).SetsHeld ((σ.tables core).setHeld p held) p l held :=
    fun held => setsHeld_setHeld hl rfl
  rw [Table.truncate_eq_setHeld hl hheld, hstart]
  unfold shrinkWrite
  split
  · have hremove := h.setHeld (removeWriteNode_region debug h.models.regions
      (hsets none) hp hheld)
    simp only [runs_bind, runs_pure] at hremove ⊢
    exact hremove.mono fun _ _ h₁ => h₁.mono fun _ _ h₂ => ⟨h₂, trivial⟩
  · simp only [runs_bind, runs_pure]
    have hmove := h.setHeld (moveWriteEnd_region h.models.regions (hsets (some index)) hp hheld)
    exact hmove.mono fun _ _ h₁ => ⟨h₁, trivial⟩

/-- What the loop knows of the region of `p`. -/
def Region (s : Table Index Priority InProgress) (p : LockPtr) (start stop : Index)
    (complete : Bool) (visits : List (LockPtr × Pending Index Priority InProgress)) : Prop :=
  ∃ l, s.locks p = some l ∧ l.start = start ∧ start ≤ stop ∧
    l.held = (if complete then none else some stop) ∧
    (complete = false → visits ≠ [] → start < stop)

/-- A region after a round. -/
theorem Region.visitAt {visits : List (LockPtr × Pending Index Priority InProgress)}
    {s : Table Index Priority InProgress} {start : Index} {complete : Bool}
    (h : Region s p start stop complete (x :: visits)) (hxp : x.1 ≠ p)
    (hle : start ≤ x.2.range.start) (r : Option Index) :
    Region (s.visitAt p x r) p start (if complete ∨ x.2.range.start = start then stop
      else x.2.range.start) (complete || decide (x.2.range.start = start)) visits := by
  obtain ⟨l, hl, rfl, hstop, hheld, hlt⟩ := h
  have hlocks := (Table.resumeAt_locks_of_ne (s := s.truncate p x.2.range.start)
    (Ne.symm hxp) r).trans
    ((Table.truncate_locks hl).trans (if_pos rfl))
  refine ⟨_, hlocks, rfl, ?_, ?_, ?_⟩
  · split
    · exact hstop
    · exact hle
  · cases complete with
    | true => simp [hheld]
    | false =>
        by_cases heq : x.2.range.start = l.start
        · simp [hheld, heq]
        · simp [hheld, heq]
  · cases complete with
    | true => simp
    | false =>
        intro hne _
        have hne : x.2.range.start ≠ l.start := by simpa using hne
        simpa [hne] using lt_of_le_of_ne hle (Ne.symm hne)

/-- What is known in the loop, when its waiters to come are `visits`: `Inv visits`.  A round keeps
it, whatever the searches find there. -/
structure Visits (stray : Stray) (debug : Bool) (core : Addr) (p : LockPtr)
    (Inv : List (LockPtr × Pending Index Priority InProgress) → System Index Priority InProgress →
      Prop) : Prop where
  releases : ∀ visits σ, Inv visits σ → (σ.tables core).Releases p visits
  round : ∀ x visits σ store log, Inv (x :: visits) σ →
    ModelsWith stray (Function.update σ.tables core ((σ.tables core).truncate p x.2.range.start))
      store →
    Searches debug core x.1 x.2.range ⟨store, log⟩ fun r => Inv visits (σ.visitAt core p x r)

theorem unlockLoop_at {start : Index}
    {shrink : Index → Index → CoreM Index Priority InProgress (Bool × Index)}
    {Inv : List (LockPtr × Pending Index Priority InProgress) →
      System Index Priority InProgress → Prop}
    (hshrink : Shrinks core p start shrink) (hvisits : Visits stray debug core p Inv) {fuel : ℕ}
    {complete : Bool} {visits : List (LockPtr × Pending Index Priority InProgress)}
    (h : SimulatesWith stray world σ) (hinv : Inv visits σ)
    (hregion : Region (σ.tables core) p start stop complete visits) (hfuel : visits.length ≤ fuel) :
    Runs (unlockLoop debug core shrink start fuel (visits.head?.map Prod.fst) complete stop) world
      fun complete w => ∃ σ' stop, Inv [] σ' ∧ SimulatesWith stray w σ' ∧
        Region (σ'.tables core) p start stop complete [] := by
  induction visits generalizing world σ fuel complete stop with
  | nil =>
      rw [List.head?_nil, Option.map_none]
      unfold unlockLoop
      rw [runs_pure]
      exact ⟨σ, stop, hinv, h, hregion⟩
  | cons x visits ih =>
      obtain ⟨fuel, rfl⟩ : ∃ n, fuel = n + 1 := ⟨fuel - 1, by simp at hfuel; omega⟩
      obtain ⟨store, log⟩ := world
      have hrel := hvisits.releases _ _ hinv
      obtain ⟨l, hl, hstart, hstop, hheld, hlt⟩ := id hregion
      obtain ⟨pre, post, hqueue, hpre⟩ := hrel.rest
      have hxq : x ∈ (σ.tables core).queue := by simp [hqueue]
      have hxp : x.1 ≠ p := fun heq => hrel.not_waiting (heq ▸ List.mem_map_of_mem hxq)
      obtain ⟨hxstart, hxpos⟩ : start ≤ x.2.range.start ∧ x.2.range.start ≤ l.pos := by
        obtain ⟨l', hl', hall⟩ := hrel.region
        obtain rfl := Option.some.inj (hl.symm.trans hl')
        exact hstart ▸ hall x (by simp)
      have hqueue' : (σ.tables core).queue = pre ++ visits.reverse ++ x :: post := by simp [hqueue]
      have hpredecessor : Runs (onPendings core (Node.predecessor x.1))
          (⟨store, log⟩ : World Index Priority InProgress) fun r w => w = ⟨store, log⟩ ∧
            r = (pre ++ visits.reverse).getLast?.map Prod.fst := by
        have hlinked := Forest.linked h.models.pendings core
        rw [hqueue'] at hlinked
        rw [runs_onPendings]
        refine hlinked.predecessor.mono ?_
        rintro r mem ⟨rfl, rfl⟩
        exact ⟨by rw [setPendingTree_self], rfl⟩
      have hnext : Runs (filterFrom core start ((pre ++ visits.reverse).getLast?.map Prod.fst))
          (⟨store, log⟩ : World Index Priority InProgress) fun r w => w = ⟨store, log⟩ ∧
            r = visits.head?.map Prod.fst := by
        refine (filterFrom_spec h.models.pendings fun y hy => ?_).mono ?_
        · rw [hqueue']
          exact List.mem_append_left _ hy
        · rintro r w ⟨rfl, rfl⟩
          refine ⟨rfl, congrArg _ (getLast?_filter (fun y hy => hstart ▸ hpre y hy l hl) ?_)⟩
          intro y hy
          obtain ⟨l', hl', hall⟩ := hrel.region
          obtain rfl := Option.some.inj (hl.symm.trans hl')
          exact hstart ▸ (hall y (List.mem_cons_of_mem _ hy)).1
      rw [List.head?_cons, Option.map_some]
      unfold unlockLoop
      simp only [runs_bind]
      refine hpredecessor.mono ?_
      rintro _ _ ⟨rfl, rfl⟩
      refine hnext.mono ?_
      rintro _ _ ⟨rfl, rfl⟩
      refine runs_loadPending h.models.pendings hxq fun n hn => ?_
      simp only [hn, runs_debugAssert, decide_eq_true_eq]
      refine ⟨fun _ => ⟨hxstart, ?_⟩, ?_⟩
      · refine hxpos.trans ?_
        cases complete with
        | true => simpa [Lock.pos, hheld, hstart] using hstop
        | false => simp [Lock.pos, hheld]
      have hshrunk : Runs
          (if complete = true then pure (true, stop) else shrink x.2.range.start stop)
          (⟨store, log⟩ : World Index Priority InProgress) fun r w =>
            SimulatesWith stray w (σ.put core ((σ.tables core).truncate p x.2.range.start)) ∧
              r = (complete || decide (x.2.range.start = start),
                if complete ∨ x.2.range.start = start then stop else x.2.range.start) := by
        cases complete with
        | true =>
            have hself : (σ.tables core).truncate p x.2.range.start = σ.tables core := by
              have hsame := Table.setHeld_self hl
              simp only [Table.truncate, hl]
              simpa [hheld] using hsame
            rw [hself, System.put_self]
            simpa using h
        | false =>
            refine (hshrink _ _ _ _ _ _ h hl hstart hheld (hlt rfl (by simp)) hxstart ?_).mono ?_
            · simpa [Lock.pos, hheld] using hxpos
            · rintro r w ⟨hw, rfl⟩
              refine ⟨hw, ?_⟩
              by_cases heq : x.2.range.start = start
              · simp [heq]
              · simp [heq]
      refine hshrunk.mono ?_
      rintro _ w ⟨hw, rfl⟩
      rw [runs_getStore, runs_record]
      have hsearch := hvisits.round x visits σ w.store (.resuming x.1 w.store :: w.log)
        hinv hw.models
      have hw := hw.note (.resuming x.1 hw.models)
      refine (resumeBorrow_at hw ?_ ?_ hsearch).mono ?_
      · simpa using hrel.toWellLinked.truncate hrel.not_waiting _
      · simpa using hxq
      rintro _ w ⟨r, hinv', hw⟩
      simp only [runs_getStore, runs_record]
      refine ih (hw.note (.resumed x.1 hw.models)) hinv' ?_ (by simpa using hfuel)
      have htable : (σ.visitAt core p x r).tables core = (σ.tables core).visitAt p x r := by
        rw [System.visitAt_tables, Function.update_self]
      have hround := hregion.visitAt hxp hxstart r
      rwa [← htable] at hround

/-- The end of the region that `p` holds. -/
def System.unborrow (core : Addr) (p : LockPtr) (σ : System Index Priority InProgress) :
    System Index Priority InProgress :=
  σ.put core ((σ.tables core).setHeld p none)

omit [LinearOrder Index] [LinearOrder Priority] in
theorem System.unborrow_self (hl : (σ.tables core).locks p = some l) (hheld : l.held = none) :
    σ.unborrow core p = σ := by
  rw [System.unborrow, ← hheld, Table.setHeld_self hl, System.put_self]

omit [LinearOrder Priority] in
/-- A lock that holds nothing has no waiters. -/
theorem Table.waitersOf_eq_nil {s : Table Index Priority InProgress} (hl : s.locks p = some l)
    (hheld : l.held = none) : s.waitersOf p = [] := by
  rw [List.eq_nil_iff_forall_not_mem]
  intro x hx
  obtain ⟨-, hle, hlt⟩ := (Table.mem_waitersOf hl).mp hx
  rw [Lock.pos, hheld] at hlt
  exact absurd hlt (not_lt.mpr hle)

/-- The waiters are looked for and visited. -/
theorem unlockVisits_at {shrink : Index → Index → CoreM Index Priority InProgress (Bool × Index)}
    {Inv : List (LockPtr × Pending Index Priority InProgress) →
      System Index Priority InProgress → Prop}
    (hshrink : Shrinks core p l.start shrink) (hvisits : Visits stray debug core p Inv)
    (h : SimulatesWith stray world σ) (hinv : Inv ((σ.tables core).waitersOf p) σ)
    (hl : (σ.tables core).locks p = some l) (hheld : l.held = some e) :
    Runs (lastPendingIn core l.start e) world fun first w => w = world ∧
      Runs (unlockLoop debug core shrink l.start world.store.pending.size first false e) world
        fun complete w => ∃ σ' l' stop, Inv [] σ' ∧ SimulatesWith stray w σ' ∧
          (σ'.tables core).locks p = some l' ∧ l'.held = if complete then none else some stop := by
  have hpos : l.pos = e := by rw [Lock.pos, hheld]; rfl
  have hrel := hvisits.releases _ _ hinv
  have hlast := lastPendingIn_spec world.log h.models.pendings hrel.toWellLinked hl
  rw [hpos] at hlast
  refine hlast.mono ?_
  rintro _ _ ⟨rfl, rfl⟩
  refine ⟨rfl, ?_⟩
  by_cases hnil : (σ.tables core).waitersOf p = []
  · rw [hnil] at hinv ⊢
    rw [List.head?_nil, Option.map_none]
    unfold unlockLoop
    rw [runs_pure]
    exact ⟨σ, l, e, hinv, h, hl, by rw [if_neg Bool.false_ne_true, hheld]⟩
  · obtain ⟨x, hx⟩ := List.exists_mem_of_ne_nil _ hnil
    obtain ⟨-, hle, hlt⟩ := (Table.mem_waitersOf hl).mp hx
    have hstart : l.start < e := hpos ▸ hle.trans_lt hlt
    have hregion : Region (σ.tables core) p l.start e false ((σ.tables core).waitersOf p) :=
      ⟨l, hl, rfl, hstart.le, hheld, fun _ _ => hstart⟩
    refine (unlockLoop_at hshrink hvisits h hinv hregion ?_).mono ?_
    · refine le_trans ?_ (Forest.linked h.models.pendings core).length_le_size
      simp only [Table.waitersOf, hl, List.length_reverse]
      exact List.length_filter_le _ _
    · rintro complete w ⟨σ', stop, hinv', hw, l', hl', -, -, hheld', -⟩
      exact ⟨σ', l', stop, hinv', hw, hl', hheld'⟩

section Inner
variable {Inv : List (LockPtr × Pending Index Priority InProgress) →
  System Index Priority InProgress →
  Prop}

theorem unlockReadInner_at (hp : p.kind.isWrite = false) (hvisits : Visits stray debug core p Inv)
    (h : SimulatesWith stray world σ) (hinv : Inv ((σ.tables core).waitersOf p) σ) :
    Runs (unlockReadInner debug core p) world fun _ w =>
      ∃ σ', Inv [] σ' ∧ SimulatesWith stray w (σ'.unborrow core p) := by
  obtain ⟨l, hl, -⟩ := (hvisits.releases _ _ hinv).region
  cases hheld : l.held with
  | none =>
      have hfree := h.models.regions.read_eq_none hl hheld false
      simp only [unlockReadInner, hasReadNodes, runs_bind, runs_getStore, runs_pure, hfree,
        Option.isSome_none, Bool.false_eq_true, if_false]
      rw [Table.waitersOf_eq_nil hl hheld] at hinv
      exact ⟨σ, hinv, by rwa [System.unborrow_self hl hheld]⟩
  | some e =>
      obtain ⟨hlower, hupper⟩ := Table.readEntry_self hl hp hheld
      obtain ⟨n₀, hn₀, helement₀⟩ := Indexed.get h.models.reads hlower
      obtain ⟨n₁, hn₁, helement₁⟩ := Indexed.get h.models.reads hupper
      simp only [unlockReadInner, hasReadNodes, runs_bind, runs_getStore, runs_pure, hn₀, hn₁,
        Option.isSome_some, if_true, runs_onReads, runs_load, Option.some.injEq, exists_eq_left',
        setReadTree_self, helement₀, helement₁]
      refine (unlockVisits_at (shrinkRead_shrinks debug hp l.start) hvisits h hinv hl hheld).mono ?_
      rintro first _ ⟨rfl, hloop⟩
      refine hloop.mono ?_
      rintro complete w ⟨σ', l', stop, hinv', hw, hl', hheld'⟩
      cases complete with
      | true =>
          simp only [Bool.not_true, Bool.false_eq_true, if_false, runs_pure]
          exact ⟨σ', hinv', by rwa [System.unborrow_self hl' hheld']⟩
      | false =>
          have hremove := hw.setHeld (removeReadNodes_region debug hw.models.regions
            (setsHeld_setHeld hl' rfl) hp hheld' false)
          exact hremove.mono fun _ _ hw' => ⟨σ', hinv', hw'⟩

theorem unlockWriteInner_at (hp : p.kind.isWrite = true) (hvisits : Visits stray debug core p Inv)
    (h : SimulatesWith stray world σ) (hinv : Inv ((σ.tables core).waitersOf p) σ) :
    Runs (unlockWriteInner debug core p) world fun _ w =>
      ∃ σ', Inv [] σ' ∧ SimulatesWith stray w (σ'.unborrow core p) := by
  obtain ⟨l, hl, -⟩ := (hvisits.releases _ _ hinv).region
  cases hheld : l.held with
  | none =>
      have hfree := h.models.regions.write_eq_none hl hheld
      simp only [unlockWriteInner, hasWriteNode, runs_bind, runs_getStore, runs_pure, hfree,
        Option.isSome_none, Bool.false_eq_true, if_false]
      rw [Table.waitersOf_eq_nil hl hheld] at hinv
      exact ⟨σ, hinv, by rwa [System.unborrow_self hl hheld]⟩
  | some e =>
      obtain ⟨n, hn, helement⟩ := Indexed.get h.models.writes (Table.writeEntry_self hl hp hheld)
      simp only [unlockWriteInner, hasWriteNode, runs_bind, runs_getStore, runs_pure, hn,
        Option.isSome_some, if_true, runs_onWrites, runs_load, Option.some.injEq, exists_eq_left',
        setWriteTree_self, helement]
      refine (unlockVisits_at (shrinkWrite_shrinks debug hp l.start) hvisits h hinv hl
        hheld).mono ?_
      rintro first _ ⟨rfl, hloop⟩
      refine hloop.mono ?_
      rintro complete w ⟨σ', l', stop, hinv', hw, hl', hheld'⟩
      cases complete with
      | true =>
          simp only [Bool.not_true, Bool.false_eq_true, if_false, runs_pure]
          exact ⟨σ', hinv', by rwa [System.unborrow_self hl' hheld']⟩
      | false =>
          have hremove := hw.setHeld (removeWriteNode_region debug hw.models.regions
            (setsHeld_setHeld hl' rfl) hp hheld')
          exact hremove.mono fun _ _ hw' => ⟨σ', hinv', hw'⟩

end Inner

/-- With exact searches, the rounds to come lead to `final`. -/
def ReleasesTo (strict : Prop) (core : Addr) (p : LockPtr)
    (final : System Index Priority InProgress)
    (visits : List (LockPtr × Pending Index Priority InProgress))
    (σ : System Index Priority InProgress) : Prop :=
  (σ.tables core).Releasing strict p visits ∧ σ.release core p visits = final

theorem releasesTo_visits (hdebug : debug = true → strict)
    (final : System Index Priority InProgress) :
    Visits stray debug core p (ReleasesTo strict core p final) where
  releases _ _ h := h.1.releases
  round x visits σ store log h hmodels := by
    obtain ⟨hrel, hfinal⟩ := h
    have hsound := hrel.truncate
    have hround : ReleasesTo strict core p final visits (σ.visit core p x) := by
      refine ⟨?_, hfinal⟩
      rw [System.visit_tables, Function.update_self]
      exact hrel.visit
    unfold System.visit at hround
    have hself := Function.update_self core ((σ.tables core).truncate p x.2.range.start) σ.tables
    have hx : x ∈ (Function.update σ.tables core
        ((σ.tables core).truncate p x.2.range.start) core).queue := by
      rw [hself, Table.truncate_queue]
      exact hrel.mem_queue
    have hsearch : Searches debug core x.1 x.2.range ⟨store, log⟩ _ :=
      Table.Sound.search (hself.symm ▸ hsound) hmodels hdebug hx
    rw [hself] at hsearch
    refine hsearch.mono fun _ _ hr => hr.mono fun _ _ hr' => ⟨hr'.1, ?_⟩
    rw [hr'.2]
    exact hround

theorem unlockReadInner_spec (hp : p.kind.isWrite = false) (hdebug : debug = true → strict)
    (h : Simulates world σ)
    (hrel : (σ.tables core).Releasing strict p ((σ.tables core).waitersOf p)) :
    Runs (unlockReadInner debug core p) world fun _ w =>
      Simulates w ((σ.release core p ((σ.tables core).waitersOf p)).unborrow core p) := by
  refine (unlockReadInner_at hp (releasesTo_visits hdebug _) h ⟨hrel, rfl⟩).mono ?_
  rintro _ w ⟨σ', ⟨-, hfinal⟩, hw⟩
  rwa [← hfinal]

theorem unlockWriteInner_spec (hp : p.kind.isWrite = true) (hdebug : debug = true → strict)
    (h : Simulates world σ)
    (hrel : (σ.tables core).Releasing strict p ((σ.tables core).waitersOf p)) :
    Runs (unlockWriteInner debug core p) world fun _ w =>
      Simulates w ((σ.release core p ((σ.tables core).waitersOf p)).unborrow core p) := by
  refine (unlockWriteInner_at hp (releasesTo_visits hdebug _) h ⟨hrel, rfl⟩).mono ?_
  rintro _ w ⟨σ', ⟨-, hfinal⟩, hw⟩
  rwa [← hfinal]

/-- A lock that this core has claimed does not wait at another one. -/
theorem Coherent.not_queued_of_ne (h : Coherent tables) (hl : (tables core).locks p = some l)
    {c : Addr} (hc : c ≠ core) : p ∉ (tables c).queue.map Prod.fst := by
  intro hmem
  obtain ⟨x, hx, rfl⟩ := List.mem_map.mp hmem
  obtain ⟨-, -, l', hl', -⟩ := (h.idle c).queued x hx
  exact hc (h.apart c core _ l' l hl' hl)

theorem Good.not_queued_of_ne (h : Good strict tables) (hl : (tables core).locks p = some l)
    {c : Addr} (hc : c ≠ core) : p ∉ (tables c).queue.map Prod.fst :=
  h.coherent.not_queued_of_ne hl hc

theorem cancelBorrow_spec (h : SimulatesWith stray world σ) (hcoherent : Coherent σ.tables)
    (hl : (σ.tables core).locks p = some l) :
    Runs (cancelBorrow debug core p) world fun r w =>
      SimulatesWith stray w (σ.put core ((σ.tables core).dequeue p)) ∧
        r.map (·.element.inProgress) = (σ.tables core).waiting p := by
  obtain ⟨store, log⟩ := world
  simp only [cancelBorrow, hasPendingNode, runs_bind, runs_getStore, runs_pure]
  by_cases hp : p ∈ (σ.tables core).queue.map Prod.fst
  · obtain ⟨x, hx, rfl⟩ := List.mem_map.mp hp
    obtain ⟨n, hn, -⟩ := h.models.pending_eq_some hx
    simp only [hn, Option.isSome_some, if_true, runs_bind, runs_pure]
    refine (removePending_spec h.models.pendings hx).mono ?_
    rintro _ _ ⟨mem, n', rfl, hforest, hn', helement⟩
    refine (takePending_spec hforest hn').mono ?_
    rintro _ _ ⟨rfl, mem', rfl, hforest'⟩
    refine ⟨⟨h.models.of_pendings rfl (PendingsModel.of_forest hforest' rfl), h.log⟩, ?_⟩
    rw [(hcoherent.idle core).waiting_eq_some hx, Option.map_some, helement]
  · have hnone : store.pending.get p = none := by
      refine h.models.pending_eq_none (h.models.parents.stray_eq_none hl) fun c => ?_
      by_cases hc : c = core
      · rwa [hc]
      · exact hcoherent.not_queued_of_ne hl hc
    simp only [hnone, Option.isSome_none, Bool.false_eq_true, if_false, runs_pure, Option.map_none]
    rw [Table.dequeue_self hp, System.put_self, Table.waiting_eq_none hp]
    exact ⟨h, rfl⟩

/-- A core gives up `p`. -/
theorem forget_spec (h : SimulatesWith stray world (σ.unborrow core p))
    (hl : ∃ l, (σ.tables core).locks p = some l) :
    SimulatesWith stray ⟨{ world.store with parent := Function.update world.store.parent p none },
      world.log⟩
      (σ.put core ((σ.tables core).forget p)) := by
  obtain ⟨l, hl⟩ := hl
  have hlocks := fun q => Table.setHeld_locks (σ.tables core) p q none hl
  have hheld : ((σ.unborrow core p).tables core).locks p = some { l with held := none } := by
    rw [System.unborrow, System.put_tables, Function.update_self, hlocks, if_pos rfl]
  have hidem : (σ.put core ((σ.tables core).forget p)).tables =
      Function.update (σ.unborrow core p).tables core ((σ.tables core).forget p) := by
    rw [System.unborrow, System.put_tables, System.put_tables, Function.update_idem]
  have htable : (σ.unborrow core p).tables core = (σ.tables core).setHeld p none := by
    rw [System.unborrow, System.put_tables, Function.update_self]
  refine ⟨?_, h.log⟩
  rw [hidem]
  refine ⟨?_, ?_, ?_, ?_⟩
  · refine h.models.parents.forget hheld ((Table.forget_locks _ _ _).trans (if_pos rfl))
      fun q hqp => ?_
    rw [Table.forget_locks, if_neg hqp, htable, hlocks, if_neg hqp]
  · refine h.models.reads.congr fun x => ?_
    rw [htable]
    by_cases hxp : x.1.1 = p
    · simp [Table.ReadEntry, Table.forget_locks, hlocks, hxp]
    · simp [Table.ReadEntry, Table.forget_locks, hlocks, hxp]
  · refine h.models.writes.congr fun x => ?_
    rw [htable]
    by_cases hxp : x.1 = p
    · simp [Table.WriteEntry, Table.forget_locks, hlocks, hxp]
    · simp [Table.WriteEntry, Table.forget_locks, hlocks, hxp]
  · exact h.models.pendings.congr (by rw [htable]; rfl)

/-- The part of an unlock operation that releases the region, in rounds that keep `Inv`. -/
def UnlocksAt (stray : Stray) (core : Addr) (p : LockPtr)
    (Inv : List (LockPtr × Pending Index Priority InProgress) → System Index Priority InProgress →
      Prop) (unlockInner : CoreM Index Priority InProgress Unit) : Prop :=
  ∀ world σ, SimulatesWith stray world σ → Inv ((σ.tables core).waitersOf p) σ →
    Runs unlockInner world fun _ w => ∃ σ', Inv [] σ' ∧ SimulatesWith stray w (σ'.unborrow core p)

section Outer
variable {Inv : List (LockPtr × Pending Index Priority InProgress) →
  System Index Priority InProgress →
  Prop}

/-- The release of a lock that does not wait any more. -/
theorem unlock_of_unlocksAt {unlockInner : CoreM Index Priority InProgress Unit}
    (hunlocks : UnlocksAt stray core p Inv unlockInner) (hvisits : Visits stray debug core p Inv)
    (h : SimulatesWith stray world (σ.put core ((σ.tables core).dequeue p)))
    (hinv : Inv (((σ.tables core).dequeue p).waitersOf p)
      (σ.put core ((σ.tables core).dequeue p))) :
    Runs unlockInner world fun _ w => ∃ σ', Inv [] σ' ∧ SimulatesWith stray
      ⟨{ w.store with parent := Function.update w.store.parent p none }, w.log⟩
      (σ'.put core ((σ'.tables core).forget p)) := by
  have htables : (σ.put core ((σ.tables core).dequeue p)).tables core =
      (σ.tables core).dequeue p := by
    rw [System.put_tables, Function.update_self]
  refine (hunlocks _ _ h (by rwa [htables])).mono ?_
  rintro _ w ⟨σ', hinv', hw⟩
  exact ⟨σ', hinv', forget_spec hw ((hvisits.releases _ _ hinv').region.imp fun _ h => h.1)⟩

theorem unlockWith_at {unlockInner : LockPtr → CoreM Index Priority InProgress Unit}
    (hunlocks : UnlocksAt stray core p Inv (unlockInner p))
    (hvisits : Visits stray debug core p Inv)
    (h : SimulatesWith stray world σ) (hcoherent : Coherent σ.tables)
    (hl : (σ.tables core).locks p = some l)
    (hinv : Inv (((σ.tables core).dequeue p).waitersOf p)
      (σ.put core ((σ.tables core).dequeue p))) :
    Runs (unlockWith debug core unlockInner p) world fun r w => ∃ σ', Inv [] σ' ∧
      SimulatesWith stray w (σ'.put core ((σ'.tables core).forget p)) ∧
        r = (σ.tables core).waiting p := by
  simp only [unlockWith, checkParent, runs_bind, runs_getStore, h.models.parent_eq hl, ne_eq,
    not_true_eq_false, if_false, runs_pure, runs_abortOnUnwind, runs_setParent]
  refine (cancelBorrow_spec h hcoherent hl).mono ?_
  rintro r w ⟨hw, hr⟩
  refine (unlock_of_unlocksAt hunlocks hvisits hw hinv).mono ?_
  rintro _ _ ⟨σ', hinv', hw'⟩
  exact ⟨σ', hinv', hw', hr⟩

/-- A non-blocking lock never waits. -/
theorem Table.WellLinked.try_not_queued {s : Table Index Priority InProgress} (h : s.WellLinked)
    (hp : p.kind ≠ .read ∧ p.kind ≠ .write) : p ∉ s.queue.map Prod.fst := by
  intro hmem
  obtain ⟨x, hx, rfl⟩ := List.mem_map.mp hmem
  obtain ⟨-, hkind, -⟩ := h.queued x hx
  exact hkind.elim hp.1 hp.2

theorem unlockTryWith_at {unlockInner : LockPtr → CoreM Index Priority InProgress Unit}
    (hunlocks : UnlocksAt stray core p Inv (unlockInner p))
    (hvisits : Visits stray debug core p Inv)
    (h : SimulatesWith stray world σ) (hcoherent : Coherent σ.tables)
    (hl : (σ.tables core).locks p = some l)
    (hinv : Inv (((σ.tables core).dequeue p).waitersOf p) (σ.put core ((σ.tables core).dequeue p)))
    (hp : p.kind ≠ .read ∧ p.kind ≠ .write) :
    Runs (unlockTryWith core unlockInner p) world fun _ w => ∃ σ', Inv [] σ' ∧
      SimulatesWith stray w (σ'.put core ((σ'.tables core).forget p)) ∧
        (σ.tables core).waiting p = none := by
  have hqueue := (hcoherent.idle core).toWellLinked.try_not_queued hp
  have hself : σ.put core ((σ.tables core).dequeue p) = σ := by
    rw [Table.dequeue_self hqueue, System.put_self]
  simp only [unlockTryWith, checkParent, runs_bind, runs_getStore, h.models.parent_eq hl, ne_eq,
    not_true_eq_false, if_false, runs_pure, runs_abortOnUnwind, runs_setParent]
  refine (unlock_of_unlocksAt hunlocks hvisits (by rwa [hself]) hinv).mono ?_
  rintro _ _ ⟨σ', hinv', hw⟩
  exact ⟨σ', hinv', hw, Table.waiting_eq_none hqueue⟩

end Outer

/-- The part of an unlock operation that releases the region, with exact searches. -/
def Unlocks (core : Addr) (p : LockPtr) (strict : Prop)
    (unlockInner : CoreM Index Priority InProgress Unit) : Prop :=
  ∀ world σ, Simulates world σ →
    (σ.tables core).Releasing strict p ((σ.tables core).waitersOf p) →
    Runs unlockInner world fun _ w =>
      Simulates w ((σ.release core p ((σ.tables core).waitersOf p)).unborrow core p)

theorem Unlocks.unlocksAt {unlockInner : CoreM Index Priority InProgress Unit}
    (hunlocks : Unlocks core p strict unlockInner) (final : System Index Priority InProgress) :
    UnlocksAt .none core p (ReleasesTo strict core p final) unlockInner := by
  intro world σ h hinv
  obtain ⟨hrel, hfinal⟩ := hinv
  refine (hunlocks world σ h hrel).mono fun _ w hw => ⟨_, ⟨?_, rfl⟩, hfinal ▸ hw⟩
  rw [← hfinal, System.release_tables, Function.update_self]
  exact hrel.foldl

/-- A release with exact searches begins. -/
theorem Good.releasesTo (hgood : Good strict σ.tables) (hl : (σ.tables core).locks p = some l) :
    ReleasesTo strict core p
      ((σ.put core ((σ.tables core).dequeue p)).release core p
        (((σ.tables core).dequeue p).waitersOf p))
      (((σ.tables core).dequeue p).waitersOf p) (σ.put core ((σ.tables core).dequeue p)) := by
  refine ⟨?_, rfl⟩
  rw [System.put_tables, Function.update_self]
  exact (hgood.quiet core).releasing hl

/-- It ends with the effect of the operation on the tables. -/
theorem ReleasesTo.forget {σ' : System Index Priority InProgress}
    (h : ReleasesTo strict core p
      ((σ.put core ((σ.tables core).dequeue p)).release core p
        (((σ.tables core).dequeue p).waitersOf p))
      [] σ') : σ'.put core ((σ'.tables core).forget p) = σ.unlock core p := by
  obtain ⟨-, hfinal⟩ := h
  have hσ' : σ' = (σ.put core ((σ.tables core).dequeue p)).release core p
      (((σ.tables core).dequeue p).waitersOf p) := hfinal
  have htables : (σ.put core ((σ.tables core).dequeue p)).tables core =
      (σ.tables core).dequeue p := by
    rw [System.put_tables, Function.update_self]
  rw [System.unlock, htables, ← hσ']

theorem unlockWith_spec {unlockInner : LockPtr → CoreM Index Priority InProgress Unit}
    (hdebug : debug = true → strict) (hunlocks : Unlocks core p strict (unlockInner p))
    (h : Simulates world σ) (hgood : Good strict σ.tables)
    (hl : (σ.tables core).locks p = some l) :
    Runs (unlockWith debug core unlockInner p) world fun r w =>
      Simulates w (σ.unlock core p) ∧ r = (σ.tables core).waiting p := by
  refine (unlockWith_at (hunlocks.unlocksAt _) (releasesTo_visits hdebug _) h hgood.coherent hl
    (hgood.releasesTo hl)).mono ?_
  rintro r w ⟨σ', hfinal, hw, hr⟩
  rw [hfinal.forget] at hw
  exact ⟨hw, hr⟩

theorem unlockTryWith_spec {unlockInner : LockPtr → CoreM Index Priority InProgress Unit}
    (hdebug : debug = true → strict) (hunlocks : Unlocks core p strict (unlockInner p))
    (h : Simulates world σ) (hgood : Good strict σ.tables)
    (hl : (σ.tables core).locks p = some l) (hp : p.kind ≠ .read ∧ p.kind ≠ .write) :
    Runs (unlockTryWith core unlockInner p) world fun _ w =>
      Simulates w (σ.unlock core p) ∧ (σ.tables core).waiting p = none := by
  refine (unlockTryWith_at (hunlocks.unlocksAt _) (releasesTo_visits hdebug _) h hgood.coherent hl
    (hgood.releasesTo hl) hp).mono ?_
  rintro _ w ⟨σ', hfinal, hw, hwaiting⟩
  rw [hfinal.forget] at hw
  exact ⟨hw, hwaiting⟩

/-! ## Inspection -/

theorem inspectWith_spec (h : SimulatesWith stray world σ) (hcoherent : Coherent σ.tables)
    (hl : (σ.tables core).locks p = some l) :
    Runs (inspectWith core p) world fun r w => w = world ∧
      r = ((σ.tables core).waiting p).elim .complete .inProgress := by
  simp only [inspectWith, checkParent, runs_bind, runs_getStore, h.models.parent_eq hl, ne_eq,
    not_true_eq_false, if_false, runs_pure]
  by_cases hp : p ∈ (σ.tables core).queue.map Prod.fst
  · obtain ⟨x, hx, rfl⟩ := List.mem_map.mp hp
    obtain ⟨n, hn, helement⟩ := h.models.pending_eq_some hx
    simp [hn, (hcoherent.idle core).waiting_eq_some hx, helement]
  · have hnone : world.store.pending.get p = none := by
      refine h.models.pending_eq_none (h.models.parents.stray_eq_none hl) fun c => ?_
      by_cases hc : c = core
      · rwa [hc]
      · exact hcoherent.not_queued_of_ne hl hc
    simp [hnone, Table.waiting_eq_none hp]

theorem writeInProgress_spec (h : SimulatesWith stray world σ)
    (hlinked : (σ.tables core).WellLinked)
    (hx : x ∈ (σ.tables core).queue) (write : InProgress → InProgress) :
    Runs (writeInProgress core x.1 write) world fun _ w =>
      SimulatesWith stray w (σ.write core x.1 write) := by
  obtain ⟨pre, post, hqueue⟩ := List.append_of_mem hx
  have hnodup := hlinked.queue_nodup
  rw [hqueue, List.map_append, List.map_cons, List.nodup_append', List.nodup_cons] at hnodup
  obtain ⟨-, ⟨hpost, -⟩, hdisjoint⟩ := hnodup
  have hsame : ∀ y : LockPtr × Pending Index Priority InProgress, y.1 ≠ x.1 →
      Table.writeEntry x.1 write y = y := fun y hy => if_neg hy
  have hwritten : ((σ.tables core).write x.1 write).queue = pre ++ (x.1,
      { x.2 with inProgress := write x.2.inProgress }) :: post := by
    simp only [Table.write, hqueue, List.map_append, List.map_cons]
    refine congrArg₂ _ ?_ (congrArg₂ _ (if_pos rfl) ?_)
    · refine (List.map_congr_left (g := id) fun y hy => hsame y fun heq => ?_).trans (List.map_id _)
      exact hdisjoint (List.mem_map_of_mem hy) (by simp [heq])
    · refine (List.map_congr_left (g := id) fun y hy => hsame y fun heq => ?_).trans (List.map_id _)
      exact hpost (heq ▸ List.mem_map_of_mem hy)
  simp only [writeInProgress, runs_onPendings]
  refine (Forest.edit h.models.pendings hqueue
    { x.2 with inProgress := write x.2.inProgress } ?_ rfl).mono ?_
  · intro n hn
    rw [hn]
  · rintro _ mem hforest
    exact ⟨h.models.of_pendings rfl (PendingsModel.of_forest hforest hwritten), h.log⟩

end Parts

end Interlock.Core
