import Interlock.Core.View

/-!
# Lock states and trees

How the fields of the lock states and the trees of the cores fit together between operations: the
table in the comments on the lock states, the nodes that each tree links, and what `Drop` checks.
-/

namespace Interlock.Core

open Memory RbTree

variable {Index Priority InProgress : Type}

namespace Store
variable (store : Store Index Priority InProgress)

/-- No region is stored in the lock state. -/
def NoNodes (p : LockPtr) : Prop :=
  (∀ side, store.read.get (p, side) = none) ∧ store.write.get p = none

/-- The rows of the table: whether `parent`, the nodes of a region and `pending` are there. -/
inductive Row (p : LockPtr) : Prop where
  | free (hparent : store.parent p = none) (hnodes : store.NoNodes p)
      (hpending : store.pending.get p = none)
  | waiting (core : Addr) (hparent : store.parent p = some core) (hnodes : store.NoNodes p)
      (hpending : (store.pending.get p).isSome)
  | holding (core : Addr) (hparent : store.parent p = some core) (hnodes : (store.region p).isSome)
      (hpending : (store.pending.get p).isSome)
  | complete (core : Addr) (hparent : store.parent p = some core) (hnodes : (store.region p).isSome)
      (hpending : store.pending.get p = none)

/-- A tree of `core` is well formed, with its summaries, and links each of the nodes in lock states
of `core` once. -/
def Links {P E S : Type} [DecidableEq P] (callback : Callback E S) (mem : TreeMem P E S)
    (lock : P → LockPtr) (core : Addr) : Prop :=
  ∃ live, Valid callback mem live ∧
    ∀ p, p ∈ live ↔ (mem.heap.get p).isSome ∧ store.parent (lock p) = some core

end Store

variable [LinearOrder Index] [LinearOrder Priority]

/-- What holds of the memory between operations. -/
structure World.Intact (world : World Index Priority InProgress) : Prop where
  row : ∀ p, world.store.Row p
  /-- A lock state of a non-blocking lock does not wait. -/
  tryRow : ∀ p, p.kind = .tryRead ∨ p.kind = .tryWrite → world.store.pending.get p = none
  reads : ∀ core, world.store.Links readNodeCallback (world.store.readTree core) Prod.fst core
  writes : ∀ core, world.store.Links writeNodeCallback (world.store.writeTree core) id core
  pendings : ∀ core, world.store.Links pendingNodeCallback (world.store.pendingTree core) id core
  /-- A waiter goes on where its region ends. -/
  waiter : ∀ p w, world.store.waiter p = some w → w.parent = p ∧ ∃ range,
    requested p world.log = some range ∧ w.range.stop = range.stop ∧
      w.range.start = ((world.store.region p).map Range.stop).getD range.start

section Reachable
variable {debug : Bool} {misuse : Prop} {world : World Index Priority InProgress}
  {σ : System Index Priority InProgress} {tables : Tables Index Priority InProgress}
  {store : Store Index Priority InProgress} {core : Addr} {p : LockPtr}

theorem ModelsWith.noNodes (h : Models tables store)
    (hnone : ∀ c l, (tables c).locks p = some l → l.held = none) : store.NoNodes p :=
  ⟨h.regions.get_read_eq_none rfl hnone, h.regions.get_write_eq_none rfl hnone⟩

theorem ModelsWith.row_of_coherent (h : Models tables store) (hcoherent : Coherent tables)
    (p : LockPtr) : store.Row p := by
  cases hparent : store.parent p with
  | none =>
      have hunused := h.not_inUse hparent
      have hqueue := fun c => (hcoherent.idle c).toWellLinked.not_queued
        (locks_eq_none_of_not_inUse hunused c)
      exact .free hparent (h.noNodes fun c l hl => absurd ⟨c, l, hl⟩ hunused)
        (h.pending_eq_none rfl hqueue)
  | some core =>
      obtain ⟨l, hl⟩ := h.exists_lock hparent
      have hregion := h.region_eq hl
      by_cases hqueue : p ∈ (tables core).queue.map Prod.fst
      · obtain ⟨x, hx, rfl⟩ := List.mem_map.mp hqueue
        obtain ⟨n, hn, -⟩ := h.pending_eq_some hx
        have hpending : (store.pending.get x.1).isSome := by rw [hn]; rfl
        cases hheld : l.held with
        | none =>
            exact .waiting core hparent (h.noNodes fun c l' hl' =>
              (h.regions.held_eq hl c l' hl').trans hheld) hpending
        | some e => exact .holding core hparent (by rw [hregion, hheld]; rfl) hpending
      · obtain ⟨e, hheld⟩ := Option.ne_none_iff_exists'.mp
          ((hcoherent.idle core).settled p l hl hqueue)
        refine .complete core hparent (by rw [hregion, hheld]; rfl)
          (h.pending_eq_none rfl fun c => ?_)
        by_cases hc : c = core
        · rwa [hc]
        · exact hcoherent.not_queued_of_ne hl hc

theorem ModelsWith.row (h : Models tables store) (hgood : Good True tables) (p : LockPtr) :
    store.Row p := h.row_of_coherent hgood.coherent p

/-- A node of a tree belongs to a lock of the tree's core. -/
theorem ModelsWith.links_reads (h : Models tables store) (core : Addr) :
    store.Links readNodeCallback (store.readTree core) Prod.fst core := by
  obtain ⟨seqs, hforest, hseqs⟩ := h.reads
  refine ⟨_, hforest.valid (fun x => store.parent x.1) (fun c x hx => ?_) core⟩
  obtain ⟨⟨x, e⟩, hmem, rfl⟩ := List.mem_map.mp hx
  obtain ⟨l, -, hl, -⟩ := ((hseqs c).2 _).mp hmem
  exact h.live_iff.mpr ⟨l, hl⟩

theorem ModelsWith.links_writes (h : Models tables store) (core : Addr) :
    store.Links writeNodeCallback (store.writeTree core) id core := by
  obtain ⟨seqs, hforest, hseqs⟩ := h.writes
  refine ⟨_, hforest.valid store.parent (fun c x hx => ?_) core⟩
  obtain ⟨⟨x, e⟩, hmem, rfl⟩ := List.mem_map.mp hx
  obtain ⟨l, -, hl, -⟩ := ((hseqs c).2 _).mp hmem
  exact h.live_iff.mpr ⟨l, hl⟩

theorem ModelsWith.links_pendings_of_linked (h : Models tables store)
    (hlinked : ∀ c, (tables c).WellLinked) (core : Addr) :
    store.Links pendingNodeCallback (store.pendingTree core) id core := by
  refine ⟨_, Forest.valid h.pendings store.parent (fun c p hp => ?_) core⟩
  obtain ⟨x, hx, rfl⟩ := List.mem_map.mp hp
  obtain ⟨-, -, l, hl, -⟩ := (hlinked c).queued x hx
  exact h.live_iff.mpr ⟨l, hl⟩

theorem ModelsWith.links_pendings (h : Models tables store) (hsound : ∀ c, (tables c).Sound True)
    (core : Addr) : store.Links pendingNodeCallback (store.pendingTree core) id core :=
  h.links_pendings_of_linked (fun c => (hsound c).wellLinked) core

/-- All trees of a core are empty if and only if its table is. -/
theorem ModelsWith.roots_eq_none_iff {stray : Stray} (h : ModelsWith stray tables store)
    (hidle : (tables core).Idle) :
    ((store.cores core).reads = none ∧ (store.cores core).writes = none ∧
      (store.cores core).pendings = none) ↔ ∀ p, (tables core).locks p = none := by
  obtain ⟨readSeqs, hreads, hreadSeqs⟩ := h.reads
  obtain ⟨writeSeqs, hwrites, hwriteSeqs⟩ := h.writes
  have hroot₁ : (store.cores core).reads = none ↔ readSeqs core = [] := hreads.root_eq_none core
  have hroot₂ : (store.cores core).writes = none ↔ writeSeqs core = [] := hwrites.root_eq_none core
  have hroot₃ : (store.cores core).pendings = none ↔ (tables core).queue = [] :=
    Forest.root_eq_none h.pendings core
  rw [hroot₁, hroot₂, hroot₃]
  constructor
  · rintro ⟨hread, hwrite, hqueue⟩ p
    by_contra hp
    obtain ⟨l, hl⟩ := Option.ne_none_iff_exists'.mp hp
    obtain ⟨e, hheld⟩ := Option.ne_none_iff_exists'.mp (hidle.settled p l hl (by simp [hqueue]))
    cases hkind : p.kind.isWrite with
    | true =>
        have hmem := ((hwriteSeqs core).2 _).mpr (Table.writeEntry_self hl hkind hheld)
        rw [hwrite] at hmem
        exact List.not_mem_nil hmem
    | false =>
        have hmem := ((hreadSeqs core).2 _).mpr (Table.readEntry_self hl hkind hheld).1
        rw [hread] at hmem
        exact List.not_mem_nil hmem
  · intro hfree
    have hnone : ∀ {p l}, (tables core).locks p ≠ some l := fun {p _} => by simp [hfree p]
    refine ⟨List.eq_nil_iff_forall_not_mem.mpr fun x hx => ?_,
      List.eq_nil_iff_forall_not_mem.mpr fun x hx => ?_,
      List.eq_nil_iff_forall_not_mem.mpr fun x hx => ?_⟩
    · obtain ⟨l, -, hl, -⟩ := ((hreadSeqs core).2 x).mp hx
      exact hnone hl
    · obtain ⟨l, -, hl, -⟩ := ((hwriteSeqs core).2 x).mp hx
      exact hnone hl
    · obtain ⟨-, -, l, hl, -⟩ := hidle.queued x hx
      exact hnone hl

/-- All trees of a core are empty if and only if it has no lock. -/
theorem ModelsWith.roots_eq_none_of_idle (h : Models tables store) (hidle : (tables core).Idle) :
    ((store.cores core).reads = none ∧ (store.cores core).writes = none ∧
      (store.cores core).pendings = none) ↔ ∀ p, store.parent p ≠ some core := by
  rw [h.roots_eq_none_iff hidle]
  refine forall_congr' fun p => ?_
  rw [ne_eq, h.live_iff, not_exists, Option.eq_none_iff_forall_ne_some]

theorem ModelsWith.roots_eq_none (h : Models tables store) (hquiet : (tables core).Quiet True) :
    ((store.cores core).reads = none ∧ (store.cores core).writes = none ∧
      (store.cores core).pendings = none) ↔ ∀ p, store.parent p ≠ some core :=
  h.roots_eq_none_of_idle hquiet.idle

/-- Does a core have a root? -/
def Roots.locked (roots : Roots) : Bool :=
  roots.reads.isSome || roots.writes.isSome || roots.pendings.isSome

theorem Roots.locked_eq_false (roots : Roots) : roots.locked = false ↔
    roots.reads = none ∧ roots.writes = none ∧ roots.pendings = none := by
  simp only [locked, Bool.or_eq_false_iff, Option.isSome_eq_false_iff, Option.isNone_iff_eq_none,
    and_assoc]

omit [LinearOrder Index] [LinearOrder Priority] in
theorem drop_ok (h : (world.store.cores core).locked = false) :
    drop core world = .ok () world := by
  rw [Roots.locked] at h
  have hruns : Runs (drop core) world fun _ w => w = world := by
    simp only [drop, runs_bind, runs_getStore, h, Bool.false_eq_true, if_false, runs_pure]
  obtain ⟨⟨⟩, w, hw, rfl⟩ := hruns
  exact hw

omit [LinearOrder Index] [LinearOrder Priority] in
theorem drop_panics (h : (world.store.cores core).locked = true) :
    ∃ message, drop core world = .error (.panic message) world := by
  rw [Roots.locked] at h
  have hstore : Runs getStore world fun store w => store = world.store ∧ w = world := by simp
  have hpanics : Panics (drop core) world
      "attempted to drop an `RbTreeIntervalRwLockCore` while it's locked" (· = world) := by
    refine hstore.panics ?_
    rintro _ _ ⟨rfl, rfl⟩
    simp only [h, if_true]
    exact panics_throw.mpr rfl
  obtain ⟨w, hw, rfl⟩ := hpanics
  exact ⟨_, hw⟩

/-- Between operations the memory is intact, and `Drop` passes without a panic if and only if no
lock state has the core as its parent. -/
theorem World.Run.intact (run : World.Run debug misuse Nonempty world) :
    world.Intact ∧ ∀ core,
      (drop core world = .ok () world ∧ ∀ p, world.store.parent p ≠ some core) ∨
      ((∃ message, drop core world = .error (.panic message) world) ∧
        ∃ p, world.store.parent p = some core) := by
  obtain ⟨σ, hσ, hrun, hgood⟩ := run.system
  have hsound := fun c => (hgood.quiet c).toSound
  refine ⟨⟨hσ.models.row hgood, fun p hkind => ?_, hσ.models.links_reads, hσ.models.links_writes,
    hσ.models.links_pendings hsound, fun p w hw => ?_⟩, fun core => ?_⟩
  · refine hσ.models.pending_eq_none rfl fun c hmem => ?_
    obtain ⟨x, hx, rfl⟩ := List.mem_map.mp hmem
    rcases ((hsound c).queued x hx).kind with heq | heq
    · rcases hkind with hkind | hkind <;> rw [heq] at hkind <;> cases hkind
    · rcases hkind with hkind | hkind <;> rw [heq] at hkind <;> cases hkind
  · obtain ⟨core, hparent, hx⟩ := hσ.models.parent_of_waiter hsound hw
    obtain ⟨l, hl, hrange, -, -⟩ := (hsound core).exists_lock hx
    refine ⟨((hsound core).queued _ hx).parent, l.request, ?_, by rw [hrange]; rfl, ?_⟩
    · rw [hσ.log.requested]
      exact (hrun.requests admissible_of_nonempty p l.request).mpr
        ⟨core, by rw [Table.requestOf, hl, Option.map_some]⟩
    · rw [hσ.models.region_eq hl, hrange, Option.map_map]
      cases hheld : l.held with
      | none => simp [Lock.pos, hheld, Lock.request]
      | some e => simp [Lock.pos, hheld]
  · have hroots := hσ.models.roots_eq_none (hgood.quiet core)
    rw [← Roots.locked_eq_false] at hroots
    cases hlocked : (world.store.cores core).locked with
    | false => exact Or.inl ⟨drop_ok hlocked, hroots.mp hlocked⟩
    | true =>
        refine Or.inr ⟨drop_panics hlocked, ?_⟩
        by_contra hfree
        have hnot := hroots.mpr fun p hp => hfree ⟨p, hp⟩
        rw [hlocked] at hnot
        cases hnot

theorem intact_tour : (World.after true tour).Intact ∧ ∀ core,
    (drop core (World.after true tour) = .ok () (World.after true tour) ∧
      ∀ p, (World.after true tour).store.parent p ≠ some core) ∨
    ((∃ message, drop core (World.after true tour) = .error (.panic message)
      (World.after true tour)) ∧
      ∃ p, (World.after true tour).store.parent p = some core) :=
  (tour_run False).intact

end Reachable

end Interlock.Core
