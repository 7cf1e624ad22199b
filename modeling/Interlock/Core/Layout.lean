import Interlock.Core.Release
import Interlock.RbTree.Forest

/-!
# Tables in memory

`Models tables store` says that the memory holds one table for each core: a lock state's `parent` is
the core in whose table it is, and the three trees of a core link the nodes that its table asks for,
each stored in its own lock state, and no others.  With `ModelsWith` there may be lock states
besides that belong to no table.

The lemmas say what the parts of the operations that touch one of the trees do to it.
-/

namespace Interlock.Core

open Memory RbTree

variable {Index Priority InProgress : Type} [LinearOrder Index] [LinearOrder Priority]

/-! ## The callbacks -/

instance : LawfulCallback (readNodeCallback : Callback (Index × Int) (BitVec 64)) where
  add_comm := BitVec.add_comm
  add_assoc := BitVec.add_assoc
  zero_add := BitVec.zero_add
  add_sub_cancel := BitVec.add_sub_cancel

instance : LawfulCallback (writeNodeCallback : Callback (Range Index) Unit) where
  add_comm _ _ := rfl
  add_assoc _ _ _ := rfl
  zero_add _ := rfl
  add_sub_cancel _ _ := rfl

instance : LawfulCallback
    (pendingNodeCallback : Callback (Pending Index Priority InProgress) Unit) where
  add_comm _ _ := rfl
  add_assoc _ _ _ := rfl
  zero_add _ := rfl
  add_sub_cancel _ _ := rfl

/-- Comparing by a key, with equal keys told apart as equal. -/
theorem consistent_of_key {E : Type} (key : E → Index) :
    Consistent (fun a b => compare (key a) (key b)) fun a b => key a ≤ key b where
  total _ _ := le_total _ _
  trans _ _ _ := le_trans
  lt_of_not_le _ _ h := compare_lt_iff_lt.mpr (not_le.mp h)
  ne_lt_of_not_le _ _ h := fun hlt => h (compare_lt_iff_lt.mp hlt).le
  tie new a b hna han hnb hbn := by
    rw [compare_lt_iff_lt, compare_lt_iff_lt, le_antisymm hna han, ← le_antisymm hnb hbn,
      le_antisymm hna han]

theorem readNodeCallback_consistent :
    Consistent (readNodeCallback : Callback (Index × Int) (BitVec 64)).cmpElement
      fun a b => a.1 ≤ b.1 :=
  consistent_of_key _

theorem writeNodeCallback_consistent :
    Consistent (writeNodeCallback : Callback (Range Index) Unit).cmpElement
      fun a b => a.start ≤ b.start :=
  consistent_of_key _

/-! ## The parts of a store -/

namespace Store
variable (store : Store Index Priority InProgress) (core : Addr)

def reads (c : Addr) : Option ReadPtr := (store.cores c).reads
def writes (c : Addr) : Option LockPtr := (store.cores c).writes
def pendings (c : Addr) : Option LockPtr := (store.cores c).pendings

section SetTree
variable (read : TreeMem ReadPtr (Index × Int) (BitVec 64))
  (write : TreeMem LockPtr (Range Index) Unit)
  (pending : TreeMem LockPtr (Pending Index Priority InProgress) Unit)

omit [LinearOrder Index] [LinearOrder Priority]

@[simp] theorem setReadTree_reads :
    (store.setReadTree core read).reads = Function.update store.reads core read.tree := by
  funext c
  by_cases hc : c = core <;> simp [reads, setReadTree, hc]

@[simp] theorem setReadTree_writes : (store.setReadTree core read).writes = store.writes := by
  funext c
  by_cases hc : c = core <;> simp [writes, setReadTree, hc]

@[simp] theorem setReadTree_pendings : (store.setReadTree core read).pendings = store.pendings := by
  funext c
  by_cases hc : c = core <;> simp [pendings, setReadTree, hc]

@[simp] theorem setWriteTree_reads : (store.setWriteTree core write).reads = store.reads := by
  funext c
  by_cases hc : c = core <;> simp [reads, setWriteTree, hc]

@[simp] theorem setWriteTree_writes :
    (store.setWriteTree core write).writes = Function.update store.writes core write.tree := by
  funext c
  by_cases hc : c = core <;> simp [writes, setWriteTree, hc]

@[simp] theorem setWriteTree_pendings :
    (store.setWriteTree core write).pendings = store.pendings := by
  funext c
  by_cases hc : c = core <;> simp [pendings, setWriteTree, hc]

@[simp] theorem setPendingTree_reads : (store.setPendingTree core pending).reads = store.reads := by
  funext c
  by_cases hc : c = core <;> simp [reads, setPendingTree, hc]

@[simp] theorem setPendingTree_writes :
    (store.setPendingTree core pending).writes = store.writes := by
  funext c
  by_cases hc : c = core <;> simp [writes, setPendingTree, hc]

@[simp] theorem setPendingTree_pendings : (store.setPendingTree core pending).pendings =
    Function.update store.pendings core pending.tree := by
  funext c
  by_cases hc : c = core <;> simp [pendings, setPendingTree, hc]

@[simp] theorem setReadTree_parent : (store.setReadTree core read).parent = store.parent := rfl
@[simp] theorem setReadTree_read : (store.setReadTree core read).read = read.heap := rfl
@[simp] theorem setReadTree_write : (store.setReadTree core read).write = store.write := rfl
@[simp] theorem setReadTree_pending : (store.setReadTree core read).pending = store.pending := rfl
@[simp] theorem setWriteTree_parent : (store.setWriteTree core write).parent = store.parent := rfl
@[simp] theorem setWriteTree_read : (store.setWriteTree core write).read = store.read := rfl
@[simp] theorem setWriteTree_write : (store.setWriteTree core write).write = write.heap := rfl
@[simp] theorem setWriteTree_pending :
    (store.setWriteTree core write).pending = store.pending := rfl
@[simp] theorem setPendingTree_parent :
    (store.setPendingTree core pending).parent = store.parent := rfl
@[simp] theorem setPendingTree_read : (store.setPendingTree core pending).read = store.read := rfl
@[simp] theorem setPendingTree_write :
    (store.setPendingTree core pending).write = store.write := rfl
@[simp] theorem setPendingTree_pending :
    (store.setPendingTree core pending).pending = pending.heap := rfl

@[simp] theorem setReadTree_idem (read' : TreeMem ReadPtr (Index × Int) (BitVec 64)) :
    (store.setReadTree core read).setReadTree core read' = store.setReadTree core read' := by
  simp [setReadTree]

@[simp] theorem setWriteTree_idem (write' : TreeMem LockPtr (Range Index) Unit) :
    (store.setWriteTree core write).setWriteTree core write' = store.setWriteTree core write' := by
  simp [setWriteTree]

@[simp] theorem setPendingTree_idem
    (pending' : TreeMem LockPtr (Pending Index Priority InProgress) Unit) :
    (store.setPendingTree core pending).setPendingTree core pending' =
      store.setPendingTree core pending' := by
  simp [setPendingTree]

@[simp] theorem setReadTree_readTree : (store.setReadTree core read).readTree core = read := by
  simp [setReadTree, readTree]

@[simp] theorem setWriteTree_writeTree :
    (store.setWriteTree core write).writeTree core = write := by
  simp [setWriteTree, writeTree]

@[simp] theorem setPendingTree_pendingTree :
    (store.setPendingTree core pending).pendingTree core = pending := by
  simp [setPendingTree, pendingTree]

end SetTree

end Store

/-! ## Programs on parts of the state -/

section Access
variable {α : Type} {world : World Index Priority InProgress} {core : Addr}

omit [LinearOrder Index] [LinearOrder Priority]

@[simp] theorem runs_onReads {m : TreeM ReadPtr (Index × Int) (BitVec 64) α}
    {post : α → World Index Priority InProgress → Prop} :
    Runs (onReads core m) world post ↔ Runs m ⟨world.store.reads core, world.store.read⟩
      fun a mem => post a ⟨world.store.setReadTree core mem, world.log⟩ := runs_zoom

@[simp] theorem runs_onWrites {m : TreeM LockPtr (Range Index) Unit α}
    {post : α → World Index Priority InProgress → Prop} :
    Runs (onWrites core m) world post ↔ Runs m ⟨world.store.writes core, world.store.write⟩
      fun a mem => post a ⟨world.store.setWriteTree core mem, world.log⟩ := runs_zoom

@[simp] theorem runs_onPendings {m : TreeM LockPtr (Pending Index Priority InProgress) Unit α}
    {post : α → World Index Priority InProgress → Prop} :
    Runs (onPendings core m) world post ↔ Runs m ⟨world.store.pendings core, world.store.pending⟩
      fun a mem => post a ⟨world.store.setPendingTree core mem, world.log⟩ := runs_zoom

@[simp] theorem runs_getStore {post : Store Index Priority InProgress →
    World Index Priority InProgress → Prop} :
    Runs getStore world post ↔ post world.store world := by
  simp [getStore]

@[simp] theorem runs_modifyStore
    {f : Store Index Priority InProgress → Store Index Priority InProgress}
    {post : Unit → World Index Priority InProgress → Prop} :
    Runs (modifyStore f) world post ↔ post () ⟨f world.store, world.log⟩ := runs_modify

@[simp] theorem runs_record
    {event : Event Index Priority InProgress (Store Index Priority InProgress)}
    {post : Unit → World Index Priority InProgress → Prop} :
    Runs (record event) world post ↔ post () ⟨world.store, event :: world.log⟩ := runs_modify

@[simp] theorem runs_setParent {lock : LockPtr} {parent : Option Addr}
    {post : Unit → World Index Priority InProgress → Prop} :
    Runs (setParent lock parent) world post ↔ post ()
      ⟨{ world.store with parent := Function.update world.store.parent lock parent }, world.log⟩ :=
  runs_modifyStore

/-- Reading a tree leaves the store as it is. -/
@[simp] theorem setReadTree_self (store : Store Index Priority InProgress) :
    store.setReadTree core ⟨store.reads core, store.read⟩ = store := by
  simp [Store.setReadTree, Store.reads]

@[simp] theorem setWriteTree_self (store : Store Index Priority InProgress) :
    store.setWriteTree core ⟨store.writes core, store.write⟩ = store := by
  simp [Store.setWriteTree, Store.writes]

@[simp] theorem setPendingTree_self (store : Store Index Priority InProgress) :
    store.setPendingTree core ⟨store.pendings core, store.pending⟩ = store := by
  simp [Store.setPendingTree, Store.pendings]

end Access

/-! ## Models -/

/-- The nodes in `reads`. -/
def Table.ReadEntry (s : Table Index Priority InProgress) (x : ReadPtr × (Index × Int)) : Prop :=
  ∃ l e, s.locks x.1.1 = some l ∧ x.1.1.kind.isWrite = false ∧ l.held = some e ∧
    x.2 = if x.1.2 then (e, -1) else (l.start, 1)

/-- The nodes in `writes`. -/
def Table.WriteEntry (s : Table Index Priority InProgress) (x : LockPtr × Range Index) : Prop :=
  ∃ l e, s.locks x.1 = some l ∧ x.1.kind.isWrite = true ∧ l.held = some e ∧ x.2 = ⟨l.start, e⟩

/-- What is in the memory and not in the tables: lock states whose `parent` points to a core that
has no table for them, and the cells of their nodes, which no tree links. -/
structure Stray where
  parent : LockPtr → Option Addr
  reads : List ReadPtr
  writes : List LockPtr
  pendings : List LockPtr
  reads_parent : ∀ x ∈ reads, parent x.1 ≠ none
  writes_parent : ∀ p ∈ writes, parent p ≠ none
  pendings_parent : ∀ p ∈ pendings, parent p ≠ none

/-- Nothing. -/
def Stray.none : Stray where
  parent _ := Option.none
  reads := []
  writes := []
  pendings := []
  reads_parent _ h := absurd h List.not_mem_nil
  writes_parent _ h := absurd h List.not_mem_nil
  pendings_parent _ h := absurd h List.not_mem_nil

section Models
variable (stray : Stray) (tables : Addr → Table Index Priority InProgress)

def ReadsModel (roots : Addr → Option ReadPtr) (heap : Heap ReadPtr (ReadNode Index)) : Prop :=
  Indexed readNodeCallback Prod.fst roots heap (fun c => (tables c).ReadEntry) stray.reads

def WritesModel (roots : Addr → Option LockPtr) (heap : Heap LockPtr (WriteNode Index)) : Prop :=
  Indexed writeNodeCallback Range.start roots heap (fun c => (tables c).WriteEntry) stray.writes

def PendingsModel (roots : Addr → Option LockPtr)
    (heap : Heap LockPtr (PendingNode Index Priority InProgress)) : Prop :=
  Forest pendingNodeCallback roots heap (fun c => (tables c).queue) stray.pendings

structure ParentsModel (parent : LockPtr → Option Addr) : Prop where
  tabled : ∀ p c, stray.parent p = none → (parent p = some c ↔ ∃ l, (tables c).locks p = some l)
  strayed : ∀ p, stray.parent p ≠ none →
    parent p = stray.parent p ∧ ∀ c, (tables c).locks p = none

structure ModelsWith (store : Store Index Priority InProgress) : Prop where
  parents : ParentsModel stray tables store.parent
  reads : ReadsModel stray tables store.reads store.read
  writes : WritesModel stray tables store.writes store.write
  pendings : PendingsModel stray tables store.pendings store.pending

/-- The memory holds the tables and nothing else. -/
abbrev Models (store : Store Index Priority InProgress) : Prop := ModelsWith .none tables store

end Models

section Update
variable {stray : Stray} {tables : Addr → Table Index Priority InProgress} {core : Addr}
  {s' : Table Index Priority InProgress}

omit [LinearOrder Priority] in
theorem ReadsModel.of_indexed {roots : Addr → Option ReadPtr} {heap : Heap ReadPtr (ReadNode Index)}
    {set : ReadPtr × (Index × Int) → Prop}
    (h : Indexed readNodeCallback Prod.fst roots heap
      (Function.update (fun c => (tables c).ReadEntry) core set) stray.reads)
    (hs' : ∀ x, s'.ReadEntry x ↔ set x) :
    ReadsModel stray (Function.update tables core s') roots heap := by
  refine h.congr fun c x => ?_
  by_cases hc : c = core
  · subst hc
    simp [hs']
  · simp [hc]

omit [LinearOrder Priority] in
theorem WritesModel.of_indexed {roots : Addr → Option LockPtr}
    {heap : Heap LockPtr (WriteNode Index)} {set : LockPtr × Range Index → Prop}
    (h : Indexed writeNodeCallback Range.start roots heap
      (Function.update (fun c => (tables c).WriteEntry) core set) stray.writes)
    (hs' : ∀ x, s'.WriteEntry x ↔ set x) :
    WritesModel stray (Function.update tables core s') roots heap := by
  refine h.congr fun c x => ?_
  by_cases hc : c = core
  · subst hc
    simp [hs']
  · simp [hc]

omit [LinearOrder Priority] in
/-- An operation on writers does not concern the readers. -/
theorem ReadsModel.congr {roots : Addr → Option ReadPtr} {heap : Heap ReadPtr (ReadNode Index)}
    (h : ReadsModel stray tables roots heap)
    (hs' : ∀ x, s'.ReadEntry x ↔ (tables core).ReadEntry x) :
    ReadsModel stray (Function.update tables core s') roots heap := by
  refine ReadsModel.of_indexed ?_ hs'
  rwa [Function.update_eq_self]

omit [LinearOrder Priority] in
theorem WritesModel.congr {roots : Addr → Option LockPtr} {heap : Heap LockPtr (WriteNode Index)}
    (h : WritesModel stray tables roots heap)
    (hs' : ∀ x, s'.WriteEntry x ↔ (tables core).WriteEntry x) :
    WritesModel stray (Function.update tables core s') roots heap := by
  refine WritesModel.of_indexed ?_ hs'
  rwa [Function.update_eq_self]

theorem PendingsModel.of_forest {roots : Addr → Option LockPtr}
    {heap : Heap LockPtr (PendingNode Index Priority InProgress)}
    {seq : List (LockPtr × Pending Index Priority InProgress)}
    (h : Forest pendingNodeCallback roots heap
      (Function.update (fun c => (tables c).queue) core seq) stray.pendings)
    (hs' : s'.queue = seq) : PendingsModel stray (Function.update tables core s') roots heap := by
  have heq : (fun c => (Function.update tables core s' c).queue) =
      Function.update (fun c => (tables c).queue) core seq := by
    funext c
    by_cases hc : c = core
    · subst hc
      simp [hs']
    · simp [hc]
  unfold PendingsModel
  rw [heq]
  exact h

theorem PendingsModel.congr {roots : Addr → Option LockPtr}
    {heap : Heap LockPtr (PendingNode Index Priority InProgress)}
    (h : PendingsModel stray tables roots heap) (hs' : s'.queue = (tables core).queue) :
    PendingsModel stray (Function.update tables core s') roots heap := by
  refine PendingsModel.of_forest ?_ hs'
  rwa [Function.update_eq_self]

omit [LinearOrder Index] [LinearOrder Priority]

/-- A lock in a table has not gone astray. -/
theorem ParentsModel.stray_eq_none {parent : LockPtr → Option Addr} {p : LockPtr} {l : Lock Index}
    (h : ParentsModel stray tables parent) (hl : (tables core).locks p = some l) :
    stray.parent p = none := by
  by_contra hp
  rw [(h.strayed p hp).2 core] at hl
  cases hl

/-- The tables settle the parents. -/
theorem ParentsModel.unique {parent parent' : LockPtr → Option Addr}
    (h : ParentsModel stray tables parent) (h' : ParentsModel stray tables parent') :
    parent = parent' := by
  funext p
  by_cases hp : stray.parent p = none
  · refine Option.ext fun c => ?_
    rw [h.tabled p c hp, h'.tabled p c hp]
  · rw [(h.strayed p hp).1, (h'.strayed p hp).1]

/-- A core changes its table; `p` is what may have got a new parent or lost its own. -/
theorem ParentsModel.update {parent : LockPtr → Option Addr} {p : LockPtr} {new : Option Addr}
    (h : ParentsModel stray tables parent) (hp : stray.parent p = none)
    (hnew : ∀ c, new = some c ↔ ∃ l, (Function.update tables core s' c).locks p = some l)
    (hs' : ∀ q, q ≠ p → ((∃ l, s'.locks q = some l) ↔ ∃ l, (tables core).locks q = some l)) :
    ParentsModel stray (Function.update tables core s') (Function.update parent p new) := by
  refine ⟨fun q c hq => ?_, fun q hq => ?_⟩
  · by_cases hqp : q = p
    · subst hqp
      rw [Function.update_self, hnew]
    · rw [Function.update_of_ne hqp, h.tabled q c hq]
      by_cases hc : c = core
      · subst hc
        rw [Function.update_self, hs' q hqp]
      · rw [Function.update_of_ne hc]
  · have hqp : q ≠ p := by
      rintro rfl
      exact hq hp
    obtain ⟨hparent, hnone⟩ := h.strayed q hq
    refine ⟨(Function.update_of_ne hqp _ _).trans hparent, fun c => ?_⟩
    by_cases hc : c = core
    · subst hc
      have hs := (hs' q hqp).not
      simp only [hnone, reduceCtorEq, exists_false, not_false_eq_true, iff_true, not_exists] at hs
      rw [Function.update_self]
      exact Option.eq_none_iff_forall_ne_some.mpr hs
    · rw [Function.update_of_ne hc]
      exact hnone c

theorem ParentsModel.congr {parent : LockPtr → Option Addr} (h : ParentsModel stray tables parent)
    (hs' : ∀ p, (∃ l, s'.locks p = some l) ↔ ∃ l, (tables core).locks p = some l) :
    ParentsModel stray (Function.update tables core s') parent := by
  refine ⟨fun p c hp => ?_, fun p hp => ⟨(h.strayed p hp).1, fun c => ?_⟩⟩
  · rw [h.tabled p c hp]
    by_cases hc : c = core
    · subst hc
      rw [Function.update_self, hs']
    · rw [Function.update_of_ne hc]
  · have hnone := (h.strayed p hp).2 c
    by_cases hc : c = core
    · subst hc
      have hs := (hs' p).not
      simp only [hnone, reduceCtorEq, exists_false, not_false_eq_true, iff_true, not_exists] at hs
      rw [Function.update_self]
      exact Option.eq_none_iff_forall_ne_some.mpr hs
    · rwa [Function.update_of_ne hc]

/-- A core claims `p`. -/
theorem ParentsModel.claim {parent : LockPtr → Option Addr} {p : LockPtr} {l : Lock Index}
    (h : ParentsModel stray tables parent) (hp : parent p = none) (hl : s'.locks p = some l)
    (hs' : ∀ q, q ≠ p → ((∃ l, s'.locks q = some l) ↔ ∃ l, (tables core).locks q = some l)) :
    ParentsModel stray (Function.update tables core s') (Function.update parent p (some core)) := by
  have hstray : stray.parent p = none := by
    by_contra hstray
    exact hstray ((h.strayed p hstray).1.symm.trans hp)
  refine h.update hstray (fun c => ?_) hs'
  by_cases hc : c = core
  · subst hc
    rw [Function.update_self]
    exact iff_of_true rfl ⟨l, hl⟩
  · rw [Function.update_of_ne hc, ← h.tabled p c hstray, hp]
    simp [Ne.symm hc]

/-- A core gives up `p`. -/
theorem ParentsModel.forget {parent : LockPtr → Option Addr} {p : LockPtr} {l : Lock Index}
    (h : ParentsModel stray tables parent) (hl : (tables core).locks p = some l)
    (hnone : s'.locks p = none)
    (hs' : ∀ q, q ≠ p → ((∃ l, s'.locks q = some l) ↔ ∃ l, (tables core).locks q = some l)) :
    ParentsModel stray (Function.update tables core s') (Function.update parent p none) := by
  have hstray := h.stray_eq_none hl
  have hparent := (h.tabled p core hstray).mpr ⟨l, hl⟩
  refine h.update hstray (fun c => iff_of_false (by simp) ?_) hs'
  by_cases hc : c = core
  · subst hc
    simp [hnone]
  · rw [Function.update_of_ne hc, ← h.tabled p c hstray, hparent]
    simpa using Ne.symm hc

end Update

/-! ## Nodes of writers -/

section Write
variable {debug : Bool} {core : Addr} {stray : Stray}
  {tables : Addr → Table Index Priority InProgress}
  {store : Store Index Priority InProgress} {log : Log Index Priority InProgress}
  {lock : LockPtr} {range : Range Index} {s' : Table Index Priority InProgress}

omit [LinearOrder Priority]

theorem insertWriteNode_spec (h : WritesModel stray tables store.writes store.write)
    (hfree : store.write.get lock = none)
    (hs' : ∀ x, s'.WriteEntry x ↔ x = (lock, range) ∨ (tables core).WriteEntry x) :
    Runs (insertWriteNode debug core lock range) ⟨store, log⟩ fun _ w =>
      ∃ mem, w = ⟨store.setWriteTree core mem, log⟩ ∧
        WritesModel stray (Function.update tables core s')
          (Function.update store.writes core mem.tree)
          mem.heap := by
  simp only [insertWriteNode, runs_bind, runs_modifyStore, runs_onWrites]
  refine ((Indexed.alloc h hfree _).insert debug (c := core) writeNodeCallback_consistent
    (Heap.get_set_self _ _ _) rfl).mono ?_
  rintro _ mem ⟨hindexed, -⟩
  exact ⟨mem, rfl, WritesModel.of_indexed hindexed hs'⟩

theorem removeWriteNode_spec (h : WritesModel stray tables store.writes store.write)
    (hentry : (tables core).WriteEntry (lock, range))
    (hs' : ∀ x, s'.WriteEntry x ↔ (tables core).WriteEntry x ∧ x.1 ≠ lock) :
    Runs (do
        onWrites core (Node.remove debug writeNodeCallback lock)
        dropWriteNode lock) (⟨store, log⟩ : World Index Priority InProgress) fun _ w =>
      ∃ mem, w = ⟨store.setWriteTree core mem, log⟩ ∧
        WritesModel stray (Function.update tables core s')
          (Function.update store.writes core mem.tree)
          mem.heap := by
  simp only [dropWriteNode, runs_bind, runs_modifyStore, runs_onWrites]
  refine (Indexed.remove debug h hentry).mono ?_
  rintro _ mem ⟨hindexed, -⟩
  exact ⟨⟨mem.tree, mem.heap.free lock⟩, rfl, WritesModel.of_indexed hindexed.free hs'⟩

/-- Moving the end of a borrowed region. -/
theorem moveWriteEnd_spec (h : WritesModel stray tables store.writes store.write)
    (hentry : (tables core).WriteEntry (lock, range)) {newEnd : Index}
    (hs' : ∀ x, s'.WriteEntry x ↔
      x = (lock, ⟨range.start, newEnd⟩) ∨ (tables core).WriteEntry x ∧ x.1 ≠ lock) :
    Runs (onWrites core (Node.modifyNode lock fun n =>
        { n with element := { n.element with stop := newEnd } }))
      (⟨store, log⟩ : World Index Priority InProgress) fun _ w =>
      ∃ mem, w = ⟨store.setWriteTree core mem, log⟩ ∧
        WritesModel stray (Function.update tables core s')
          (Function.update store.writes core mem.tree)
          mem.heap := by
  simp only [runs_onWrites]
  refine (Indexed.edit h hentry ⟨range.start, newEnd⟩ ?_ rfl rfl).mono ?_
  · rintro n rfl
    rfl
  · intro _ mem hindexed
    exact ⟨mem, rfl, WritesModel.of_indexed hindexed hs'⟩

end Write

/-! ## Nodes of readers -/

section Read
variable {debug : Bool} {core : Addr} {stray : Stray}
  {tables : Addr → Table Index Priority InProgress}
  {store : Store Index Priority InProgress} {log : Log Index Priority InProgress}
  {lock : LockPtr} {range : Range Index} {s' : Table Index Priority InProgress}

omit [LinearOrder Priority]

theorem insertReadNodes_spec (h : ReadsModel stray tables store.reads store.read)
    (hfree : ∀ side, store.read.get (lock, side) = none)
    (hs' : ∀ x, s'.ReadEntry x ↔ x = ((lock, false), (range.start, 1)) ∨
      x = ((lock, true), (range.stop, -1)) ∨ (tables core).ReadEntry x) :
    Runs (insertReadNodes debug core lock range) ⟨store, log⟩ fun _ w =>
      ∃ mem, w = ⟨store.setReadTree core mem, log⟩ ∧
        ReadsModel stray (Function.update tables core s')
          (Function.update store.reads core mem.tree)
          mem.heap := by
  simp only [insertReadNodes, runs_bind, runs_modifyStore, runs_onReads]
  set n₀ : ReadNode Index := .new (range.start, 1) 1#64 with hn₀
  set n₁ : ReadNode Index := .new (range.stop, -1) (-1#64) with hn₁
  have hne : ((lock, true) : ReadPtr) ≠ (lock, false) := by simp
  have hfree₁ : (store.read.set (lock, false) n₀).get (lock, true) = none := by
    rw [Heap.get_set_ne _ _ hne, hfree]
  have hget₀ : ((store.read.set (lock, false) n₀).set (lock, true) n₁).get (lock, false) =
      some n₀ := by
    rw [Heap.get_set_ne _ _ hne.symm, Heap.get_set_self]
  have halloc := ((Indexed.alloc h (hfree false) n₀).alloc hfree₁ n₁).perm (List.Perm.swap _ _ _)
  refine (halloc.insert debug (c := core) readNodeCallback_consistent hget₀ rfl).mono ?_
  rintro _ mem ⟨hindexed, hkeep⟩
  have hget₁ : mem.heap.get (lock, true) = some n₁ := by
    rw [hkeep _ List.mem_cons_self, Heap.get_set_self]
  have hsecond := hindexed.insert debug (c := core) readNodeCallback_consistent hget₁ rfl
  simp only [Function.update_self, Function.update_idem] at hsecond
  simp only [Store.setReadTree_reads, Function.update_self, Store.setReadTree_read]
  refine hsecond.mono ?_
  rintro _ mem' ⟨hindexed', -⟩
  refine ⟨mem', ?_, ReadsModel.of_indexed hindexed' fun x => ?_⟩
  · rw [Store.setReadTree_idem]
    rfl
  · rw [hs' x]
    exact or_left_comm

theorem removeReadNodes_spec {start stop : Index}
    (h : ReadsModel stray tables store.reads store.read)
    (hlower : (tables core).ReadEntry ((lock, false), (start, 1)))
    (hupper : (tables core).ReadEntry ((lock, true), (stop, -1)))
    (hs' : ∀ x, s'.ReadEntry x ↔ (tables core).ReadEntry x ∧ x.1.1 ≠ lock) (first : Bool) :
    Runs (do
        onReads core (Node.remove debug readNodeCallback (lock, first))
        onReads core (Node.remove debug readNodeCallback (lock, !first))
        dropReadNodes lock) (⟨store, log⟩ : World Index Priority InProgress) fun _ w =>
      ∃ mem, w = ⟨store.setReadTree core mem, log⟩ ∧
        ReadsModel stray (Function.update tables core s')
          (Function.update store.reads core mem.tree)
          mem.heap := by
  simp only [dropReadNodes, runs_bind, runs_modifyStore, runs_onReads]
  have hentry : ∀ side, ∃ e, (tables core).ReadEntry ((lock, side), e) := fun side => by
    cases side with
    | false => exact ⟨_, hlower⟩
    | true => exact ⟨_, hupper⟩
  obtain ⟨e, he⟩ := hentry first
  refine (Indexed.remove debug h he).mono ?_
  rintro _ mem ⟨hindexed, -⟩
  obtain ⟨e', he'⟩ := hentry (!first)
  have hsecond := hindexed.remove debug (c := core) (p := (lock, !first)) (e := e')
    (by simp only [Function.update_self]; exact ⟨he', by simp⟩)
  simp only [Function.update_self, Function.update_idem] at hsecond
  simp only [Store.setReadTree_reads, Function.update_self, Store.setReadTree_read]
  refine hsecond.mono ?_
  rintro _ mem' ⟨hindexed', -⟩
  have hloose : Indexed readNodeCallback Prod.fst (Function.update store.reads core mem'.tree)
      ((mem'.heap.free (lock, false)).free (lock, true))
      (Function.update (fun c => (tables c).ReadEntry) core fun x =>
        ((tables core).ReadEntry x ∧ x.1 ≠ (lock, first)) ∧ x.1 ≠ (lock, !first)) stray.reads := by
    cases first with
    | false => exact (hindexed'.perm (List.Perm.swap _ _ _)).free.free
    | true => exact hindexed'.free.free
  refine ⟨⟨mem'.tree, (mem'.heap.free (lock, false)).free (lock, true)⟩, ?_,
    ReadsModel.of_indexed hloose fun x => ?_⟩
  · rw [Store.setReadTree_idem]
    rfl
  · rw [hs' x, and_assoc]
    refine and_congr_right fun _ => ?_
    obtain ⟨⟨p, side⟩, e⟩ := x
    cases side <;> cases first <;> simp

/-- Moving the upper endpoint of a region: the node is removed, overwritten and inserted again. -/
theorem moveReadEnd_spec {stop newEnd : Index} (h : ReadsModel stray tables store.reads store.read)
    (hupper : (tables core).ReadEntry ((lock, true), (stop, -1)))
    (hs' : ∀ x, s'.ReadEntry x ↔ x = ((lock, true), (newEnd, -1)) ∨
      (tables core).ReadEntry x ∧ x.1 ≠ (lock, true)) :
    Runs (moveReadEnd debug core lock newEnd)
      (⟨store, log⟩ : World Index Priority InProgress) fun _ w =>
      ∃ mem, w = ⟨store.setReadTree core mem, log⟩ ∧
        ReadsModel stray (Function.update tables core s')
          (Function.update store.reads core mem.tree)
          mem.heap := by
  simp only [moveReadEnd, runs_bind, runs_onReads]
  refine (Indexed.remove debug h hupper).mono ?_
  rintro _ mem ⟨hindexed, n, hn, helement⟩
  simp only [runs_modifyNode, Store.setReadTree_reads, Function.update_self,
    Store.setReadTree_read, hn, Option.some.injEq, exists_eq_left']
  set n' : ReadNode Index := { n with element := (newEnd, n.element.2), summary := -1#64 } with hn'
  have helement' : n'.element = (newEnd, -1) := by rw [hn', helement]
  have hsecond := (hindexed.write List.mem_cons_self n').insert debug (c := core)
    readNodeCallback_consistent (Heap.get_set_self _ _ _) (by rw [helement', hn']; rfl)
  simp only [Function.update_self, Function.update_idem, helement'] at hsecond
  refine hsecond.mono ?_
  rintro _ mem' ⟨hindexed', -⟩
  refine ⟨mem', ?_, ReadsModel.of_indexed hindexed' hs'⟩
  rw [Store.setReadTree_idem, Store.setReadTree_idem]

end Read

/-! ## Nodes of waiters -/

section Pending
variable {debug : Bool} {core : Addr} {stray : Stray}
  {tables : Addr → Table Index Priority InProgress}
  {store : Store Index Priority InProgress} {log : Log Index Priority InProgress}
  {lock : LockPtr} {s' : Table Index Priority InProgress}
  {x : LockPtr × Pending Index Priority InProgress}

theorem insertPendingNode_spec (h : PendingsModel stray tables store.pendings store.pending)
    (hsorted : (tables core).queue.Pairwise fun x y => pendingLe x.2 y.2)
    (hfree : store.pending.get lock = none) {pending : Pending Index Priority InProgress}
    (hs' : s'.queue = insertSeq pendingNodeCallback (lock, pending) (tables core).queue) :
    Runs (insertPendingNode debug core lock pending) ⟨store, log⟩ fun _ w =>
      ∃ mem, w = ⟨store.setPendingTree core mem, log⟩ ∧
        PendingsModel stray (Function.update tables core s')
          (Function.update store.pendings core mem.tree)
          mem.heap := by
  simp only [insertPendingNode, hasPendingNode, runs_bind, runs_getStore, runs_pure,
    runs_debugAssert, runs_modifyStore, runs_onPendings, hfree, Option.isSome_none, Bool.not_false,
    implies_true, true_and]
  refine ((Forest.alloc h hfree _).insert (c := core) (Heap.get_set_self _ _ _) rfl
    pendingNodeCallback_consistent hsorted).mono ?_
  rintro _ mem ⟨hforest, -⟩
  exact ⟨mem, rfl, PendingsModel.of_forest hforest hs'⟩

/-- Taking a waiter out of the tree, but not yet out of its lock state. -/
theorem removePending_spec (h : PendingsModel stray tables store.pendings store.pending)
    (hx : x ∈ (tables core).queue) :
    Runs (onPendings core (Node.remove debug pendingNodeCallback x.1)) ⟨store, log⟩ fun _ w =>
      ∃ mem n, w = ⟨store.setPendingTree core mem, log⟩ ∧
        Forest pendingNodeCallback (Function.update store.pendings core mem.tree) mem.heap
          (Function.update (fun c => (tables c).queue) core (removeSeq x.1 (tables core).queue))
          (x.1 :: stray.pendings) ∧
        mem.heap.get x.1 = some n ∧ n.element = x.2 := by
  rw [runs_onPendings]
  refine (Forest.remove h (List.mem_map_of_mem hx)).mono ?_
  rintro _ mem ⟨hforest, ⟨n, hn, helement⟩, -⟩
  refine ⟨mem, n, rfl, hforest, hn, ?_⟩
  exact congrArg Prod.snd (List.inj_on_of_nodup_map (Forest.linked h core).nodup helement hx rfl)

theorem takePending_spec {mem : TreeMem LockPtr (Pending Index Priority InProgress) Unit}
    {seqs : Addr → List (LockPtr × Pending Index Priority InProgress)}
    {n : PendingNode Index Priority InProgress}
    (h : Forest pendingNodeCallback (Function.update store.pendings core mem.tree) mem.heap
      seqs (lock :: stray.pendings)) (hn : mem.heap.get lock = some n) :
    Runs (takePending core lock) ⟨store.setPendingTree core mem, log⟩ fun r w =>
      r = n ∧ ∃ mem', w = ⟨store.setPendingTree core mem', log⟩ ∧
        Forest pendingNodeCallback (Function.update store.pendings core mem'.tree) mem'.heap
          seqs stray.pendings := by
  simp only [takePending, runs_bind, runs_onPendings, Store.setPendingTree_pendings,
    Function.update_self, Store.setPendingTree_pending, runs_load, hn, Option.some.injEq,
    exists_eq_left', runs_modifyStore, runs_pure, true_and]
  refine ⟨⟨mem.tree, mem.heap.free lock⟩, ?_, h.free⟩
  rw [Store.setPendingTree_idem]
  rfl

end Pending

end Interlock.Core
