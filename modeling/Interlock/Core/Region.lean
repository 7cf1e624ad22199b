import Interlock.Core.Search

/-!
# Regions in memory

What a lock holds is stored as one node or two in its lock state.  The lemmas say that the functions
that make, move and drop these nodes change what the lock holds, and nothing else.
-/

namespace Interlock.Core

open Memory RbTree

variable {Index Priority InProgress : Type} [LinearOrder Index] [LinearOrder Priority]

/-! ## Entries -/

namespace Table
variable {s s' : Table Index Priority InProgress} {p : LockPtr} {l : Lock Index}
  {held : Option Index} {e : Index}

/-- `s'` is `s` with another region for `p`. -/
def SetsHeld (s s' : Table Index Priority InProgress) (p : LockPtr) (l : Lock Index)
    (held : Option Index) : Prop :=
  s.locks p = some l ∧ ∀ q, s'.locks q = if q = p then some { l with held } else s.locks q

omit [LinearOrder Index] [LinearOrder Priority]

theorem SetsHeld.locks_self (h : s.SetsHeld s' p l held) : s'.locks p = some { l with held } :=
  (h.2 p).trans (if_pos rfl)

theorem SetsHeld.locks_ne (h : s.SetsHeld s' p l held) {q : LockPtr} (hne : q ≠ p) :
    s'.locks q = s.locks q := (h.2 q).trans (if_neg hne)

theorem SetsHeld.exists_lock_iff (h : s.SetsHeld s' p l held) (q : LockPtr) :
    (∃ l, s'.locks q = some l) ↔ ∃ l, s.locks q = some l := by
  by_cases hqp : q = p
  · subst hqp
    simp [h.locks_self, h.1]
  · rw [h.locks_ne hqp]

theorem SetsHeld.writeEntry_iff (h : s.SetsHeld s' p l held) (x : LockPtr × Range Index) :
    s'.WriteEntry x ↔ (p.kind.isWrite = true ∧ ∃ e, held = some e ∧ x = (p, ⟨l.start, e⟩)) ∨
      s.WriteEntry x ∧ x.1 ≠ p := by
  obtain ⟨q, r⟩ := x
  by_cases hqp : q = p
  · subst hqp
    simp [WriteEntry, h.locks_self]
  · simp [WriteEntry, h.locks_ne hqp, hqp]

theorem SetsHeld.readEntry_iff (h : s.SetsHeld s' p l held) (x : ReadPtr × (Index × Int)) :
    s'.ReadEntry x ↔ (p.kind.isWrite = false ∧ ∃ e, held = some e ∧
      (x = ((p, false), (l.start, 1)) ∨ x = ((p, true), (e, -1)))) ∨
        s.ReadEntry x ∧ x.1.1 ≠ p := by
  obtain ⟨⟨q, side⟩, y⟩ := x
  by_cases hqp : q = p
  · subst hqp
    cases side <;> simp [ReadEntry, h.locks_self]
  · simp [ReadEntry, h.locks_ne hqp, hqp]

theorem SetsHeld.writeEntry_congr (h : s.SetsHeld s' p l held) (hp : p.kind.isWrite = false)
    (x : LockPtr × Range Index) : s'.WriteEntry x ↔ s.WriteEntry x := by
  rw [h.writeEntry_iff, hp]
  simp only [Bool.false_eq_true, false_and, false_or, and_iff_left_iff_imp]
  rintro ⟨-, -, -, hw, -⟩ heq
  rw [heq, hp] at hw
  cases hw

theorem SetsHeld.readEntry_congr (h : s.SetsHeld s' p l held) (hp : p.kind.isWrite = true)
    (x : ReadPtr × (Index × Int)) : s'.ReadEntry x ↔ s.ReadEntry x := by
  rw [h.readEntry_iff, hp]
  simp only [Bool.true_eq_false, false_and, false_or, and_iff_left_iff_imp]
  rintro ⟨-, -, -, hw, -⟩ heq
  rw [heq, hp] at hw
  cases hw

/-- The node of a writer. -/
theorem writeEntry_self (hl : s.locks p = some l) (hp : p.kind.isWrite = true)
    (hheld : l.held = some e) : s.WriteEntry (p, ⟨l.start, e⟩) := ⟨l, e, hl, hp, hheld, rfl⟩

/-- The nodes of a reader. -/
theorem readEntry_self (hl : s.locks p = some l) (hp : p.kind.isWrite = false)
    (hheld : l.held = some e) : s.ReadEntry ((p, false), (l.start, 1)) ∧
      s.ReadEntry ((p, true), (e, -1)) :=
  ⟨⟨l, e, hl, hp, hheld, rfl⟩, ⟨l, e, hl, hp, hheld, rfl⟩⟩

theorem not_writeEntry (hl : s.locks p = some l) (hheld : l.held = none) {x : LockPtr × Range Index}
    (hx : s.WriteEntry x) : x.1 ≠ p := by
  rintro rfl
  obtain ⟨l', e, hl', -, he, -⟩ := hx
  obtain rfl := Option.some.inj (hl.symm.trans hl')
  rw [hheld] at he
  cases he

theorem not_readEntry (hl : s.locks p = some l) (hheld : l.held = none)
    {x : ReadPtr × (Index × Int)} (hx : s.ReadEntry x) : x.1.1 ≠ p := by
  rintro rfl
  obtain ⟨l', e, hl', -, he, -⟩ := hx
  obtain rfl := Option.some.inj (hl.symm.trans hl')
  rw [hheld] at he
  cases he

end Table

/-! ## Regions -/

/-- The part of `Models` that does not speak of the waiters. -/
structure Regions (stray : Stray) (tables : Addr → Table Index Priority InProgress)
    (store : Store Index Priority InProgress) : Prop where
  parents : ParentsModel stray tables store.parent
  reads : ReadsModel stray tables store.reads store.read
  writes : WritesModel stray tables store.writes store.write

theorem ModelsWith.regions {stray : Stray} {tables : Addr → Table Index Priority InProgress}
    {store : Store Index Priority InProgress} (h : ModelsWith stray tables store) :
    Regions stray tables store :=
  ⟨h.parents, h.reads, h.writes⟩

section Specs
variable {debug : Bool} {core : Addr} {stray : Stray}
  {tables : Addr → Table Index Priority InProgress}
  {store : Store Index Priority InProgress} {log : Log Index Priority InProgress} {p : LockPtr}
  {l : Lock Index} {held : Option Index} {e i stop : Index} {s' : Table Index Priority InProgress}

/-- The regions are now those of `tables`, and nothing has happened to the waiters. -/
def RegionsChange (stray : Stray) (tables : Addr → Table Index Priority InProgress)
    (store : Store Index Priority InProgress) (log : Log Index Priority InProgress)
    (w : World Index Priority InProgress) : Prop :=
  ∃ store', w = ⟨store', log⟩ ∧ Regions stray tables store' ∧ store'.parent = store.parent ∧
    store'.pendings = store.pendings ∧ store'.pending = store.pending

omit [LinearOrder Priority]

/-- A lock state that holds nothing has no nodes for a region. -/
theorem Regions.get_write_eq_none (h : Regions stray tables store) (hp : stray.parent p = none)
    (hheld : ∀ c l, (tables c).locks p = some l → l.held = none) : store.write.get p = none := by
  refine Indexed.get_eq_none h.writes (fun hmem => stray.writes_parent p hmem hp)
    fun c e hentry => ?_
  obtain ⟨l, e', hl, -, he, -⟩ := hentry
  rw [hheld c l hl] at he
  cases he

theorem Regions.get_read_eq_none (h : Regions stray tables store) (hp : stray.parent p = none)
    (hheld : ∀ c l, (tables c).locks p = some l → l.held = none) (side : Bool) :
    store.read.get (p, side) = none := by
  refine Indexed.get_eq_none h.reads (fun hmem => stray.reads_parent _ hmem hp)
    fun c e hentry => ?_
  obtain ⟨l, e', hl, -, he, -⟩ := hentry
  rw [hheld c l hl] at he
  cases he

/-- A lock is in one table only. -/
theorem Regions.held_eq (h : Regions stray tables store) (hl : (tables core).locks p = some l)
    (c : Addr) (l' : Lock Index) (hl' : (tables c).locks p = some l') : l'.held = l.held := by
  have hp := h.parents.stray_eq_none hl
  have hcore := (h.parents.tabled p core hp).mpr ⟨l, hl⟩
  have hc := (h.parents.tabled p c hp).mpr ⟨l', hl'⟩
  obtain rfl : core = c := Option.some.inj (hcore.symm.trans hc)
  rw [Option.some.inj (hl.symm.trans hl')]

/-- A lock that holds nothing has no nodes for a region. -/
theorem Regions.write_eq_none (h : Regions stray tables store)
    (hl : (tables core).locks p = some l) (hheld : l.held = none) : store.write.get p = none :=
  h.get_write_eq_none (h.parents.stray_eq_none hl)
    fun c l' hl' => (h.held_eq hl c l' hl').trans hheld

theorem Regions.read_eq_none (h : Regions stray tables store)
    (hl : (tables core).locks p = some l) (hheld : l.held = none) (side : Bool) :
    store.read.get (p, side) = none :=
  h.get_read_eq_none (h.parents.stray_eq_none hl)
    (fun c l' hl' => (h.held_eq hl c l' hl').trans hheld) side

/-- After a step on the tree of writers. -/
theorem Regions.setWrite (h : Regions stray tables store)
    (hsets : (tables core).SetsHeld s' p l held) (hp : p.kind.isWrite = true)
    {mem : TreeMem LockPtr (Range Index) Unit}
    (hwrites : WritesModel stray (Function.update tables core s')
      (Function.update store.writes core mem.tree) mem.heap) :
    RegionsChange stray (Function.update tables core s') store log
      ⟨store.setWriteTree core mem, log⟩ := by
  refine ⟨_, rfl, ⟨?_, ?_, ?_⟩, rfl, by simp, rfl⟩
  · exact h.parents.congr hsets.exists_lock_iff
  · simpa using h.reads.congr (hsets.readEntry_congr hp)
  · simpa using hwrites

theorem Regions.setRead (h : Regions stray tables store)
    (hsets : (tables core).SetsHeld s' p l held) (hp : p.kind.isWrite = false)
    {mem : TreeMem ReadPtr (Index × Int) (BitVec 64)}
    (hreads : ReadsModel stray (Function.update tables core s')
      (Function.update store.reads core mem.tree) mem.heap) :
    RegionsChange stray (Function.update tables core s') store log
      ⟨store.setReadTree core mem, log⟩ := by
  refine ⟨_, rfl, ⟨?_, ?_, ?_⟩, rfl, by simp, rfl⟩
  · exact h.parents.congr hsets.exists_lock_iff
  · simpa using hreads
  · simpa using h.writes.congr (hsets.writeEntry_congr hp)

/-! ### Growing -/

/-- A first region. -/
theorem insertWriteNode_region (h : Regions stray tables store)
    (hsets : (tables core).SetsHeld s' p l (some e)) (hp : p.kind.isWrite = true)
    (hheld : l.held = none) :
    Runs (insertWriteNode debug core p ⟨l.start, e⟩) ⟨store, log⟩ fun _ w =>
      RegionsChange stray (Function.update tables core s') store log w := by
  have hfree := h.write_eq_none hsets.1 hheld
  have hentries : ∀ x, s'.WriteEntry x ↔ x = (p, ⟨l.start, e⟩) ∨ (tables core).WriteEntry x := by
    intro x
    rw [hsets.writeEntry_iff]
    simp only [hp, true_and, Option.some.injEq, exists_eq_left']
    exact or_congr_right (and_iff_left_of_imp (Table.not_writeEntry hsets.1 hheld))
  refine (insertWriteNode_spec h.writes hfree hentries).mono ?_
  rintro _ w ⟨mem, rfl, hwrites⟩
  exact h.setWrite hsets hp hwrites

theorem insertReadNodes_region (h : Regions stray tables store)
    (hsets : (tables core).SetsHeld s' p l (some e)) (hp : p.kind.isWrite = false)
    (hheld : l.held = none) :
    Runs (insertReadNodes debug core p ⟨l.start, e⟩) ⟨store, log⟩ fun _ w =>
      RegionsChange stray (Function.update tables core s') store log w := by
  have hfree := h.read_eq_none hsets.1 hheld
  have hentries : ∀ x, s'.ReadEntry x ↔ x = ((p, false), (l.start, 1)) ∨
      x = ((p, true), (e, -1)) ∨ (tables core).ReadEntry x := by
    intro x
    rw [hsets.readEntry_iff]
    simp only [hp, true_and, Option.some.injEq, exists_eq_left', or_assoc]
    exact or_congr_right (or_congr_right (and_iff_left_of_imp (Table.not_readEntry hsets.1 hheld)))
  refine (insertReadNodes_spec h.reads hfree hentries).mono ?_
  rintro _ w ⟨mem, rfl, hreads⟩
  exact h.setRead hsets hp hreads

/-- Another end for a region. -/
theorem moveWriteEnd_region (h : Regions stray tables store)
    (hsets : (tables core).SetsHeld s' p l (some i)) (hp : p.kind.isWrite = true)
    (hheld : l.held = some e) :
    Runs (onWrites core (Node.modifyNode p fun n =>
        { n with element := { n.element with stop := i } }))
      (⟨store, log⟩ : World Index Priority InProgress) fun _ w =>
      RegionsChange stray (Function.update tables core s') store log w := by
  have hentries : ∀ x, s'.WriteEntry x ↔
      x = (p, ⟨l.start, i⟩) ∨ (tables core).WriteEntry x ∧ x.1 ≠ p := by
    intro x
    rw [hsets.writeEntry_iff]
    simp [hp]
  have hself := Table.writeEntry_self hsets.1 hp hheld
  refine (moveWriteEnd_spec h.writes hself hentries).mono ?_
  rintro _ w ⟨mem, rfl, hwrites⟩
  exact h.setWrite hsets hp hwrites

theorem moveReadEnd_region (debug : Bool) (h : Regions stray tables store)
    (hsets : (tables core).SetsHeld s' p l (some i)) (hp : p.kind.isWrite = false)
    (hheld : l.held = some e) :
    Runs (moveReadEnd debug core p i) (⟨store, log⟩ : World Index Priority InProgress) fun _ w =>
      RegionsChange stray (Function.update tables core s') store log w := by
  obtain ⟨hlower, hupper⟩ := Table.readEntry_self hsets.1 hp hheld
  -- Of the two nodes of `p` the lower one stays
  have hstay : ∀ x, (tables core).ReadEntry x ∧ x.1 ≠ (p, true) ↔
      x = ((p, false), (l.start, 1)) ∨ (tables core).ReadEntry x ∧ x.1.1 ≠ p := by
    rintro ⟨⟨q, side⟩, y⟩
    by_cases hqp : q = p
    · subst hqp
      cases side with
      | true => simp
      | false =>
          simp only [ne_eq, Prod.mk.injEq, true_and, Bool.false_eq_true, not_false_eq_true,
            and_true, not_true_eq_false, and_false, or_false]
          constructor
          · rintro ⟨l', e', hl', -, -, hy⟩
            obtain rfl := Option.some.inj (hsets.1.symm.trans hl')
            exact hy
          · rintro rfl
            exact hlower
    · simp [hqp]
  have hentries : ∀ x, s'.ReadEntry x ↔ x = ((p, true), (i, -1)) ∨
      (tables core).ReadEntry x ∧ x.1 ≠ (p, true) := by
    intro x
    rw [hsets.readEntry_iff, hstay]
    simp only [hp, true_and, Option.some.injEq, exists_eq_left']
    tauto
  refine (moveReadEnd_spec h.reads hupper hentries).mono ?_
  rintro _ w ⟨mem, rfl, hreads⟩
  exact h.setRead hsets hp hreads

/-- The last part of `resume_borrow`. -/
theorem expand_region (h : Regions stray tables store)
    (hsets : (tables core).SetsHeld s' p l (some e)) :
    Runs (if p.kind.isWrite then expandWrite debug core p l.pos e
      else expandRead debug core p l.pos e) ⟨store, log⟩ fun _ w =>
        RegionsChange stray (Function.update tables core s') store log w := by
  cases hp : p.kind.isWrite with
  | true =>
      simp only [if_true, expandWrite, hasWriteNode, runs_bind, runs_getStore, runs_pure]
      cases hheld : l.held with
      | none =>
          have hfree := h.write_eq_none hsets.1 hheld
          have hpos : l.pos = l.start := by rw [Lock.pos, hheld]; rfl
          rw [hfree, hpos]
          exact insertWriteNode_region h hsets hp hheld
      | some e' =>
          obtain ⟨n, hn, -⟩ := Indexed.get h.writes (Table.writeEntry_self hsets.1 hp hheld)
          rw [hn]
          exact moveWriteEnd_region h hsets hp hheld
  | false =>
      simp only [Bool.false_eq_true, if_false, expandRead, hasReadNodes, runs_bind, runs_getStore,
        runs_pure]
      cases hheld : l.held with
      | none =>
          have hfree := h.read_eq_none hsets.1 hheld
          have hpos : l.pos = l.start := by rw [Lock.pos, hheld]; rfl
          rw [hfree, hpos]
          exact insertReadNodes_region h hsets hp hheld
      | some e' =>
          obtain ⟨n, hn, -⟩ := Indexed.get h.reads (Table.readEntry_self hsets.1 hp hheld).1
          rw [hn]
          exact moveReadEnd_region debug h hsets hp hheld

/-! ### Shrinking -/

theorem removeWriteNode_region (debug : Bool) (h : Regions stray tables store)
    (hsets : (tables core).SetsHeld s' p l none) (hp : p.kind.isWrite = true)
    (hheld : l.held = some e) :
    Runs (do
        onWrites core (Node.remove debug writeNodeCallback p)
        dropWriteNode p) (⟨store, log⟩ : World Index Priority InProgress) fun _ w =>
      RegionsChange stray (Function.update tables core s') store log w := by
  have hentries : ∀ x, s'.WriteEntry x ↔ (tables core).WriteEntry x ∧ x.1 ≠ p := by
    intro x
    rw [hsets.writeEntry_iff]
    simp
  have hself := Table.writeEntry_self hsets.1 hp hheld
  refine (removeWriteNode_spec h.writes hself hentries).mono ?_
  rintro _ w ⟨mem, rfl, hwrites⟩
  exact h.setWrite hsets hp hwrites

theorem removeReadNodes_region (debug : Bool) (h : Regions stray tables store)
    (hsets : (tables core).SetsHeld s' p l none) (hp : p.kind.isWrite = false)
    (hheld : l.held = some e) (first : Bool) :
    Runs (do
        onReads core (Node.remove debug readNodeCallback (p, first))
        onReads core (Node.remove debug readNodeCallback (p, !first))
        dropReadNodes p) (⟨store, log⟩ : World Index Priority InProgress) fun _ w =>
      RegionsChange stray (Function.update tables core s') store log w := by
  obtain ⟨hlower, hupper⟩ := Table.readEntry_self hsets.1 hp hheld
  have hentries : ∀ x, s'.ReadEntry x ↔ (tables core).ReadEntry x ∧ x.1.1 ≠ p := by
    intro x
    rw [hsets.readEntry_iff]
    simp
  refine (removeReadNodes_spec h.reads hlower hupper hentries first).mono ?_
  rintro _ w ⟨mem, rfl, hreads⟩
  exact h.setRead hsets hp hreads

end Specs

end Interlock.Core
