import Interlock.Core.Table

/-!
# The invariant of a table

`Sound` holds at every moment, also in the middle of an operation.  The most important part of it is
`exclusive`: two locks that conflict never hold the same index.  `strict` says that no request has
an empty range; without it readers may have one.

Between operations a table is also `Quiet`: a lock that does not wait has got its whole range, and
a lock that waits is blocked by another one.
-/

namespace Interlock.Core

open Memory RbTree

variable {Index Priority InProgress : Type} [LinearOrder Index] [LinearOrder Priority]

/-! ## Locks -/

/-- The locks that requests lead to. -/
structure Lock.WellFormed (strict : Prop) (p : LockPtr) (l : Lock Index) : Prop where
  le : l.start ≤ l.stop
  nonempty : strict ∨ p.kind.isWrite = true → l.start < l.stop
  held : ∀ e, l.held = some e → l.start ≤ e ∧ e ≤ l.stop ∧ (l.start < l.stop → l.start < e)

namespace Lock
variable {strict : Prop} {p : LockPtr} {l : Lock Index} {range : Range Index} {i : Index}

theorem WellFormed.start_le_pos (h : l.WellFormed strict p) : l.start ≤ l.pos := by
  cases hheld : l.held with
  | none => simp [pos, hheld]
  | some e => simpa [pos, hheld] using (h.held e hheld).1

theorem WellFormed.pos_le_stop (h : l.WellFormed strict p) : l.pos ≤ l.stop := by
  cases hheld : l.held with
  | none => simpa [pos, hheld] using h.le
  | some e => simpa [pos, hheld] using (h.held e hheld).2.1

theorem holds_iff : l.Holds i ↔ ∃ e, l.held = some e ∧ l.start ≤ i ∧ i < e := by
  cases hheld : l.held with
  | none =>
      simp only [Holds, pos, hheld, Option.getD_none, reduceCtorEq, false_and, exists_false,
        iff_false, not_and, not_lt]
      exact id
  | some e => simp [Holds, pos, hheld]

theorem conflict_eq_some : l.conflict range = some i ↔
    ∃ e, l.held = some e ∧ l.start < range.stop ∧ range.start < e ∧
      max l.start range.start = i := by
  unfold conflict
  cases l.held with
  | none => simp
  | some e => simp [and_assoc]

/-- A held index of a range makes a conflict that does not lie behind it. -/
theorem conflict_of_holds (h : l.Holds i) (hstart : range.start ≤ i) (hstop : i < range.stop) :
    ∃ j ≤ i, l.conflict range = some j := by
  obtain ⟨e, hheld, hle, hlt⟩ := holds_iff.mp h
  exact ⟨_, max_le hle hstart, conflict_eq_some.mpr
    ⟨e, hheld, hle.trans_lt hstop, hstart.trans_lt hlt, rfl⟩⟩

theorem le_of_conflict (h : l.conflict range = some i) : range.start ≤ i := by
  obtain ⟨e, -, -, -, rfl⟩ := conflict_eq_some.mp h
  exact le_max_right _ _

/-- The conflict lies in the range, unless the range is empty. -/
theorem conflict_cases (h : l.conflict range = some i) : i < range.stop ∨ i = range.start := by
  obtain ⟨e, -, hstop, -, rfl⟩ := conflict_eq_some.mp h
  rcases max_choice l.start range.start with hmax | hmax
  · rw [hmax]
    exact Or.inl hstop
  · rw [hmax]
    exact Or.inr rfl

/-- Where all ranges are non-empty, the index of the conflict is held. -/
theorem holds_of_conflict (hl : l.WellFormed strict p) (hstrict : strict)
    (h : l.conflict range = some i) : l.Holds i := by
  obtain ⟨e, hheld, -, hstart, rfl⟩ := conflict_eq_some.mp h
  have hlt := (hl.held e hheld).2.2 (hl.nonempty (Or.inl hstrict))
  exact holds_iff.mpr ⟨e, hheld, le_max_left _ _, max_lt hlt hstart⟩

end Lock

/-! ## The order of the queue -/

/-- By the position, then by the priority. -/
def pendingLe (a b : Pending Index Priority InProgress) : Prop :=
  a.range.start < b.range.start ∨ (a.range.start = b.range.start ∧ a.priority ≤ b.priority)

/-- Does the new waiter go behind the existing one? -/
theorem goesRight_pending {new existing : Pending Index Priority InProgress} :
    goesRight pendingNodeCallback new existing = true ↔
      existing.range.start < new.range.start ∨
        (existing.range.start = new.range.start ∧ existing.priority < new.priority) := by
  simp only [goesRight, pendingNodeCallback, bne_iff_ne, ne_eq, Ordering.then_eq_lt,
    compare_lt_iff_lt, compare_eq_iff_eq, and_true, not_or, not_and]
  rcases lt_trichotomy new.range.start existing.range.start with hlt | heq | hgt
  · simp [hlt, hlt.ne', hlt.not_gt]
  · rcases lt_trichotomy new.priority existing.priority with hp | hp | hp
    · simp [heq, hp, hp.le]
    · simp [heq, hp]
    · simp [heq, hp, hp.ne', hp.not_gt]
  · simp [hgt, hgt.not_gt, hgt.ne', Ordering.then_eq_eq]

theorem cmpElement_pending_eq_lt {new existing : Pending Index Priority InProgress} :
    pendingNodeCallback.cmpElement new existing = .lt ↔ pendingLe new existing := by
  have hright : goesRight pendingNodeCallback new existing = true ↔ ¬ pendingLe new existing := by
    rw [goesRight_pending, pendingLe]
    rcases lt_trichotomy new.range.start existing.range.start with hlt | heq | hgt
    · simp [hlt, hlt.ne', hlt.le]
    · simp [heq]
    · simp [hgt, hgt.ne', hgt.le]
  rw [goesRight, bne_iff_ne, ne_eq, not_iff_not] at hright
  exact hright

theorem pendingLe_total (a b : Pending Index Priority InProgress) :
    pendingLe a b ∨ pendingLe b a := by
  rcases lt_trichotomy a.range.start b.range.start with hlt | heq | hgt
  · exact Or.inl (Or.inl hlt)
  · rcases le_total a.priority b.priority with hle | hle
    · exact Or.inl (Or.inr ⟨heq, hle⟩)
    · exact Or.inr (Or.inr ⟨heq.symm, hle⟩)
  · exact Or.inr (Or.inl hgt)

theorem pendingLe_trans {a b c : Pending Index Priority InProgress} (hab : pendingLe a b)
    (hbc : pendingLe b c) : pendingLe a c := by
  rcases hab with hab | ⟨hab, habp⟩
  · rcases hbc with hbc | ⟨hbc, -⟩
    · exact Or.inl (hab.trans hbc)
    · exact Or.inl (hbc ▸ hab)
  · rcases hbc with hbc | ⟨hbc, hbcp⟩
    · exact Or.inl (hab ▸ hbc)
    · exact Or.inr ⟨hab.trans hbc, habp.trans hbcp⟩

theorem pendingLe.start_le {a b : Pending Index Priority InProgress} (h : pendingLe a b) :
    a.range.start ≤ b.range.start := by
  rcases h with h | ⟨h, -⟩
  · exact h.le
  · exact h.le

theorem pendingNodeCallback_consistent :
    Consistent (pendingNodeCallback : Callback (Pending Index Priority InProgress) Unit).cmpElement
      pendingLe where
  total := pendingLe_total
  trans _ _ _ := pendingLe_trans
  lt_of_not_le new existing h :=
    cmpElement_pending_eq_lt.mpr ((pendingLe_total existing new).resolve_left h)
  ne_lt_of_not_le _ _ h := cmpElement_pending_eq_lt.not.mpr h
  tie _ _ _ ha _ hb _ := iff_of_true (cmpElement_pending_eq_lt.mpr ha)
    (cmpElement_pending_eq_lt.mpr hb)

/-! ## Sound tables -/

namespace Table
variable {strict : Prop} {s : Table Index Priority InProgress} {p q : LockPtr}
  {l lq : Lock Index} {range : Range Index} {held : Option Index} {i j : Index}
  {x y : LockPtr × Pending Index Priority InProgress}

/-- No lock other than `p` keeps `p` from holding `i`. -/
def Free (s : Table Index Priority InProgress) (p : LockPtr) (i : Index) : Prop :=
  ∀ q l, q ≠ p → s.locks q = some l → conflicting p q → ¬ l.Holds i

/-- An entry of the queue belongs to its lock. -/
structure Queued (s : Table Index Priority InProgress)
    (x : LockPtr × Pending Index Priority InProgress) : Prop where
  parent : x.2.parent = x.1
  kind : x.1.kind = .read ∨ x.1.kind = .write
  lock : ∃ l, s.locks x.1 = some l ∧ x.2.range = ⟨l.pos, l.stop⟩ ∧
    (l.start < l.stop → l.pos < l.stop)

structure Sound (strict : Prop) (s : Table Index Priority InProgress) : Prop where
  live_nodup : s.live.Nodup
  mem_live : ∀ p, p ∈ s.live ↔ ∃ l, s.locks p = some l
  wellFormed : ∀ p l, s.locks p = some l → l.WellFormed strict p
  exclusive : ∀ p l i, s.locks p = some l → l.Holds i → s.Free p i
  queue_nodup : (s.queue.map Prod.fst).Nodup
  queued : ∀ x ∈ s.queue, s.Queued x
  sorted : s.queue.Pairwise fun x y => pendingLe x.2 y.2

/-- The part of it that does not depend on what the searches for conflicts find. -/
structure WellLinked (s : Table Index Priority InProgress) : Prop where
  queue_nodup : (s.queue.map Prod.fst).Nodup
  queued : ∀ x ∈ s.queue, x.2.parent = x.1 ∧ (x.1.kind = .read ∨ x.1.kind = .write) ∧
    ∃ l, s.locks x.1 = some l ∧ x.2.range = ⟨l.pos, l.stop⟩
  sorted : s.queue.Pairwise fun x y => pendingLe x.2 y.2

theorem Sound.wellLinked (h : s.Sound strict) : s.WellLinked := by
  refine ⟨h.queue_nodup, fun x hx => ?_, h.sorted⟩
  obtain ⟨hparent, hkind, l, hl, hrange, -⟩ := h.queued x hx
  exact ⟨hparent, hkind, l, hl, hrange⟩

/-! ### Conflicts -/

theorem Sound.firstConflict_isFirst (h : s.Sound strict) (p : LockPtr) (range : Range Index) :
    IsFirst (s.ConflictAt p range) (s.firstConflict p range) := by
  refine (isFirst_min? _).congr fun i => ?_
  simp only [List.mem_filterMap, h.mem_live, ConflictAt]
  constructor
  · rintro ⟨q, ⟨l, hl⟩, hq⟩
    split at hq
    · next hconf =>
        rw [hl, Option.bind_some] at hq
        exact ⟨q, l, hl, hconf, hq⟩
    · cases hq
  · rintro ⟨q, l, hl, hconf, hq⟩
    refine ⟨q, ⟨l, hl⟩, ?_⟩
    rw [if_pos hconf, hl, Option.bind_some, hq]

/-- In front of the first conflict, or in the whole range, nothing is in the way. -/
theorem Sound.free_of_firstConflict (h : s.Sound strict) (hstart : range.start ≤ j)
    (hlt : j < (s.firstConflict p range).getD range.stop) : s.Free p j := by
  intro q l hne hl hconf hholds
  have hfirst := h.firstConflict_isFirst p range
  cases hr : s.firstConflict p range with
  | none =>
      rw [hr] at hfirst hlt
      obtain ⟨k, -, hk⟩ := Lock.conflict_of_holds hholds hstart hlt
      exact hfirst k ⟨q, l, hl, hconf, hk⟩
  | some i =>
      rw [hr] at hfirst hlt
      have hstop : j < range.stop := by
        obtain ⟨-, l', -, -, hi⟩ := hfirst.1
        rcases Lock.conflict_cases hi with hlt' | rfl
        · exact lt_trans hlt hlt'
        · exact absurd hlt (not_lt.mpr hstart)
      obtain ⟨k, hkj, hk⟩ := Lock.conflict_of_holds hholds hstart hstop
      have hik := hfirst.2 k ⟨q, l, hl, hconf, hk⟩
      exact absurd hlt (not_lt.mpr (hik.trans hkj))

theorem Sound.le_firstConflict (h : s.Sound strict) (hi : s.firstConflict p range = some i) :
    range.start ≤ i ∧ (i < range.stop ∨ i = range.start) := by
  have hfirst := h.firstConflict_isFirst p range
  rw [hi] at hfirst
  obtain ⟨-, l, -, -, hconf⟩ := hfirst.1
  exact ⟨Lock.le_of_conflict hconf, Lock.conflict_cases hconf⟩

/-- The first conflict is a lock that holds its index. -/
theorem Sound.holder_of_firstConflict (h : s.Sound strict) (hstrict : strict)
    (hi : s.firstConflict p range = some i) :
    ∃ q l, s.locks q = some l ∧ conflicting p q ∧ l.Holds i := by
  have hfirst := h.firstConflict_isFirst p range
  rw [hi] at hfirst
  obtain ⟨q, l, hl, hconf, hc⟩ := hfirst.1
  exact ⟨q, l, hl, hconf, Lock.holds_of_conflict (h.wellFormed q l hl) hstrict hc⟩

/-- The first conflict is where another lock first holds an index of the range.  `p` itself holds
none of it. -/
theorem Sound.firstConflict_isFirst_not_free (h : s.Sound strict) (hstrict : strict)
    (hrange : range.start < range.stop) (hp : ∀ l, s.locks p = some l → l.pos ≤ range.start) :
    IsFirst (fun i => range.start ≤ i ∧ i < range.stop ∧ ¬ s.Free p i)
      (s.firstConflict p range) := by
  cases hfirst : s.firstConflict p range with
  | none =>
      rintro j ⟨hstart, hstop, hnot⟩
      exact hnot (h.free_of_firstConflict hstart (by simpa [hfirst] using hstop))
  | some i =>
      obtain ⟨hstart, hstop⟩ := h.le_firstConflict hfirst
      obtain ⟨q, l, hl, hconf, hholds⟩ := h.holder_of_firstConflict hstrict hfirst
      have hqp : q ≠ p := by
        rintro rfl
        exact absurd hholds.2 (not_lt.mpr ((hp l hl).trans hstart))
      refine ⟨⟨hstart, ?_, fun hfree => hfree q l hqp hl hconf hholds⟩, ?_⟩
      · rcases hstop with hstop | rfl
        · exact hstop
        · exact hrange
      · rintro j ⟨hj, -, hnot⟩
        by_contra hlt
        exact hnot (h.free_of_firstConflict hj (by simpa [hfirst] using hlt))

/-! ### The parts of operations -/

theorem empty_sound : (empty : Table Index Priority InProgress).Sound strict where
  live_nodup := List.nodup_nil
  mem_live := by simp [empty]
  wellFormed := by simp [empty]
  exclusive := by simp [empty]
  queue_nodup := List.nodup_nil
  queued := by simp [empty]
  sorted := List.Pairwise.nil

theorem Sound.dequeue (h : s.Sound strict) (p : LockPtr) : (s.dequeue p).Sound strict where
  live_nodup := h.live_nodup
  mem_live := h.mem_live
  wellFormed := h.wellFormed
  exclusive := h.exclusive
  queue_nodup := h.queue_nodup.sublist (List.filter_sublist.map _)
  queued x hx := by
    obtain ⟨hparent, hkind, hlock⟩ := h.queued x (List.mem_filter.mp hx).1
    exact ⟨hparent, hkind, hlock⟩
  sorted := h.sorted.filter _

theorem Sound.enqueue (h : s.Sound strict) (hx : x.1 ∉ s.queue.map Prod.fst) (hq : s.Queued x) :
    (s.enqueue x).Sound strict where
  live_nodup := h.live_nodup
  mem_live := h.mem_live
  wellFormed := h.wellFormed
  exclusive := h.exclusive
  queue_nodup := by
    refine (insertSeq_perm.map Prod.fst).nodup_iff.mpr ?_
    exact List.nodup_cons.mpr ⟨hx, h.queue_nodup⟩
  queued y hy := by
    have hqueued : ∀ y, s.Queued y → (s.enqueue x).Queued y := by
      rintro y ⟨hparent, hkind, hlock⟩
      exact ⟨hparent, hkind, hlock⟩
    rcases List.mem_cons.mp (insertSeq_perm.mem_iff.mp hy) with rfl | hy
    · exact hqueued _ hq
    · exact hqueued y (h.queued y hy)
  sorted := insertSeq_sorted pendingNodeCallback_consistent h.sorted

/-- Locks other than `p` are as they were, and `p` holds no index that another lock needs alone. -/
theorem Sound.exclusive_of (h : s.Sound strict) {s' : Table Index Priority InProgress}
    (hother : ∀ q, q ≠ p → s'.locks q = s.locks q)
    (hfree : ∀ l i, s'.locks p = some l → l.Holds i → s.Free p i) :
    ∀ q l i, s'.locks q = some l → l.Holds i → s'.Free q i := by
  have hfree' : ∀ l i, s'.locks p = some l → l.Holds i → s'.Free p i := by
    intro l i hl hi q lq hne hlq
    rw [hother q hne] at hlq
    exact hfree l i hl hi q lq hne hlq
  intro q l i hl hi r lr hne hlr hconf hri
  by_cases hqp : q = p
  · subst hqp
    exact hfree' l i hl hi r lr hne hlr hconf hri
  · by_cases hrp : r = p
    · subst hrp
      exact hfree' lr i hlr hri q l (Ne.symm hne) hl (conflicting_comm q r ▸ hconf) hi
    · rw [hother q hqp] at hl
      rw [hother r hrp] at hlr
      exact h.exclusive q l i hl hi r lr hne hlr hconf hri

theorem Sound.setHeld (h : s.Sound strict) (hl : s.locks p = some l)
    (hp : p ∉ s.queue.map Prod.fst) (hwf : { l with held }.WellFormed strict p)
    (hfree : ∀ i, { l with held }.Holds i → s.Free p i) : (s.setHeld p held).Sound strict where
  live_nodup := h.live_nodup
  mem_live q := by
    rw [setHeld_live, h.mem_live q, setHeld_locks _ _ _ _ hl]
    by_cases hqp : q = p
    · simp [hqp, hl]
    · simp [hqp]
  wellFormed q lq hlq := by
    rw [setHeld_locks _ _ _ _ hl] at hlq
    split at hlq
    · next hqp =>
        rw [hqp, ← Option.some.inj hlq]
        exact hwf
    · exact h.wellFormed q lq hlq
  exclusive := by
    refine h.exclusive_of (p := p) (fun q hne => ?_) fun l' i hl' hi => ?_
    · rw [setHeld_locks _ _ _ _ hl, if_neg hne]
    · rw [setHeld_locks _ _ _ _ hl, if_pos rfl] at hl'
      exact hfree i (Option.some.inj hl' ▸ hi)
  queue_nodup := h.queue_nodup
  queued y hy := by
    obtain ⟨hparent, hkind, hlock⟩ := h.queued y hy
    have hne : y.1 ≠ p := fun heq => hp (heq ▸ List.mem_map_of_mem hy)
    exact ⟨hparent, hkind, by rwa [setHeld_locks _ _ _ _ hl, if_neg hne]⟩
  sorted := h.sorted

theorem Sound.add (h : s.Sound strict) (hp : s.locks p = none)
    (hwf : Lock.WellFormed strict p ⟨range.start, range.stop, held⟩)
    (hfree : ∀ i, Lock.Holds ⟨range.start, range.stop, held⟩ i → s.Free p i) :
    (s.add p range held).Sound strict where
  live_nodup := by
    refine List.nodup_cons.mpr ⟨fun hmem => ?_, h.live_nodup⟩
    obtain ⟨l, hl⟩ := (h.mem_live p).mp hmem
    rw [hp] at hl
    cases hl
  mem_live q := by
    rw [add_live, List.mem_cons, h.mem_live q, add_locks]
    by_cases hqp : q = p
    · simp [hqp]
    · simp [hqp]
  wellFormed q lq hlq := by
    rw [add_locks] at hlq
    split at hlq
    · next hqp =>
        rw [hqp, ← Option.some.inj hlq]
        exact hwf
    · exact h.wellFormed q lq hlq
  exclusive := by
    refine h.exclusive_of (p := p) (fun q hne => ?_) fun l i hl hi => ?_
    · rw [add_locks, if_neg hne]
    · rw [add_locks, if_pos rfl] at hl
      exact hfree i (Option.some.inj hl ▸ hi)
  queue_nodup := h.queue_nodup
  queued y hy := by
    obtain ⟨hparent, hkind, l, hl, hrest⟩ := h.queued y hy
    have hne : y.1 ≠ p := fun heq => by simp [heq, hp] at hl
    exact ⟨hparent, hkind, l, by rwa [add_locks, if_neg hne], hrest⟩
  sorted := h.sorted

theorem Sound.forget (h : s.Sound strict) (hp : p ∉ s.queue.map Prod.fst) :
    (s.forget p).Sound strict where
  live_nodup := h.live_nodup.filter _
  mem_live q := by
    rw [mem_forget_live, h.mem_live q, forget_locks]
    by_cases hqp : q = p
    · simp [hqp]
    · simp [hqp]
  wellFormed q lq hlq := by
    rw [forget_locks] at hlq
    split at hlq
    · cases hlq
    · exact h.wellFormed q lq hlq
  exclusive := by
    refine h.exclusive_of (p := p) (fun q hne => ?_) fun l i hl _ => ?_
    · rw [forget_locks, if_neg hne]
    · rw [forget_locks, if_pos rfl] at hl
      cases hl
  queue_nodup := h.queue_nodup
  queued y hy := by
    obtain ⟨hparent, hkind, hlock⟩ := h.queued y hy
    have hne : y.1 ≠ p := fun heq => hp (heq ▸ List.mem_map_of_mem hy)
    exact ⟨hparent, hkind, by rwa [forget_locks, if_neg hne]⟩
  sorted := h.sorted

/-! ### Waiters -/

theorem WellLinked.find_queue (h : s.WellLinked) (hx : x ∈ s.queue) :
    (s.queue.find? fun y => y.1 = x.1) = some x := by
  rw [List.find?_eq_some_iff_append]
  obtain ⟨pre, post, hqueue⟩ := List.append_of_mem hx
  refine ⟨by simp, pre, post, hqueue, fun y hy => ?_⟩
  have hnodup := h.queue_nodup
  rw [hqueue, List.map_append, List.map_cons, List.nodup_append] at hnodup
  have hne := hnodup.2.2 y.1 (List.mem_map_of_mem hy) x.1 (by simp)
  simpa using hne

theorem Sound.find_queue (h : s.Sound strict) (hx : x ∈ s.queue) :
    (s.queue.find? fun y => y.1 = x.1) = some x := h.wellLinked.find_queue hx

theorem WellLinked.waiting_eq_some (h : s.WellLinked) (hx : x ∈ s.queue) :
    s.waiting x.1 = some x.2.inProgress := by
  rw [Table.waiting, h.find_queue hx, Option.map_some]

theorem Sound.waiting_eq_some (h : s.Sound strict) (hx : x ∈ s.queue) :
    s.waiting x.1 = some x.2.inProgress := h.wellLinked.waiting_eq_some hx

omit [LinearOrder Index] [LinearOrder Priority] in
theorem waiting_eq_none (hp : p ∉ s.queue.map Prod.fst) : s.waiting p = none := by
  rw [Table.waiting, List.find?_eq_none.mpr, Option.map_none]
  intro x hx heq
  exact hp ((decide_eq_true_eq.mp heq : x.1 = p) ▸ List.mem_map_of_mem hx)

omit [LinearOrder Index] [LinearOrder Priority] in
theorem dequeue_self (hp : p ∉ s.queue.map Prod.fst) : s.dequeue p = s := by
  have hqueue : removeSeq p s.queue = s.queue := by
    refine List.filter_eq_self.mpr fun x hx => ?_
    have hne : x.1 ≠ p := fun heq => hp (heq ▸ List.mem_map_of_mem hx)
    simpa using hne
  calc s.dequeue p = ⟨s.locks, s.live, removeSeq p s.queue⟩ := rfl
    _ = s := by rw [hqueue]

omit [LinearOrder Index] [LinearOrder Priority] in
theorem write_self {f : InProgress → InProgress} (hp : p ∉ s.queue.map Prod.fst) :
    s.write p f = s := by
  have hqueue : s.queue.map (writeEntry p f) = s.queue := by
    refine (List.map_congr_left (g := id) fun x hx => if_neg fun heq => ?_).trans (List.map_id _)
    exact hp (heq ▸ List.mem_map_of_mem hx)
  calc s.write p f = ⟨s.locks, s.live, s.queue.map (writeEntry p f)⟩ := rfl
    _ = s := by rw [hqueue]

/-! ### The operations keep a table sound -/

omit [LinearOrder Index] [LinearOrder Priority] in
theorem not_mem_dequeue (s : Table Index Priority InProgress) (p : LockPtr) :
    p ∉ (s.dequeue p).queue.map Prod.fst := by
  simp [dequeue, removeSeq]

/-- What is known about the lock of a waiter. -/
theorem Sound.exists_lock (h : s.Sound strict) (hx : x ∈ s.queue) :
    ∃ l, s.locks x.1 = some l ∧ x.2.range = ⟨l.pos, l.stop⟩ ∧ l.WellFormed strict x.1 ∧
      (l.start < l.stop → l.pos < l.stop) := by
  obtain ⟨-, -, l, hl, hrange, hlt⟩ := h.queued x hx
  exact ⟨l, hl, hrange, h.wellFormed _ l hl, hlt⟩

/-- What a waiter gets when it goes on is free. -/
theorem Sound.free_of_resume (h : s.Sound strict) (hl : s.locks p = some l)
    (hi : i = (s.firstConflict p ⟨l.pos, l.stop⟩).getD l.stop) (hj : l.start ≤ j) (hlt : j < i) :
    s.Free p j := by
  by_cases hpos : j < l.pos
  · exact h.exclusive p l j hl ⟨hj, hpos⟩
  · have hstart : (⟨l.pos, l.stop⟩ : Range Index).start ≤ j := not_lt.mp hpos
    exact h.free_of_firstConflict hstart (by rwa [← hi])

/-- What a call of `resume_borrow` can do: nothing, move the waiter, or complete it. -/
theorem Sound.resume_cases (h : s.Sound strict) (hx : x ∈ s.queue) (hl : s.locks x.1 = some l) :
    (s.firstConflict x.1 ⟨l.pos, l.stop⟩ = some l.pos ∧ s.resume x = s) ∨
    (∃ i, s.firstConflict x.1 ⟨l.pos, l.stop⟩ = some i ∧ l.pos < i ∧ i < l.stop ∧
      s.resume x = ((s.dequeue x.1).setHeld x.1 (some i)).enqueue (moveTo x i)) ∨
    (s.firstConflict x.1 ⟨l.pos, l.stop⟩ = none ∧
      s.resume x = (s.dequeue x.1).setHeld x.1 (some l.stop)) := by
  obtain ⟨l', hl', hrange, -, -⟩ := h.exists_lock hx
  obtain rfl := Option.some.inj (hl.symm.trans hl')
  unfold Table.resume Table.resumeAt
  rw [hrange]
  cases hfirst : s.firstConflict x.1 ⟨l.pos, l.stop⟩ with
  | none => exact Or.inr (Or.inr ⟨rfl, rfl⟩)
  | some i =>
      obtain ⟨hle, hstop⟩ := h.le_firstConflict hfirst
      by_cases heq : i = l.pos
      · exact Or.inl ⟨by rw [heq], if_pos heq⟩
      · exact Or.inr (Or.inl ⟨i, rfl, lt_of_le_of_ne hle (Ne.symm heq), hstop.resolve_right heq,
          if_neg heq⟩)

theorem Sound.resume (h : s.Sound strict) (hx : x ∈ s.queue) : (s.resume x).Sound strict := by
  obtain ⟨l, hl, hrange, hwf, hlt⟩ := h.exists_lock hx
  have hkind := (h.queued x hx).kind
  have hparent := (h.queued x hx).parent
  have hdeq := h.dequeue x.1
  have hnot := not_mem_dequeue s x.1
  have hldeq : (s.dequeue x.1).locks x.1 = some l := hl
  rcases h.resume_cases hx hl with ⟨-, heq⟩ | ⟨i, hi, hposlt, hilt, heq⟩ | ⟨hnone, heq⟩
  · rw [heq]
    exact h
  · rw [heq]
    have hheld : ({ l with held := some i } : Lock Index).WellFormed strict x.1 := by
      refine ⟨hwf.le, hwf.nonempty, fun e he => ?_⟩
      obtain rfl := Option.some.inj he
      have hstart := hwf.start_le_pos.trans_lt hposlt
      exact ⟨hstart.le, hilt.le, fun _ => hstart⟩
    have hset := hdeq.setHeld hldeq hnot hheld fun j hj =>
      h.free_of_resume hl (i := i) (by simp [hi]) hj.1 hj.2
    refine hset.enqueue hnot ⟨hparent, hkind, { l with held := some i }, ?_, ?_, fun _ => hilt⟩
    · rw [setHeld_locks _ _ _ _ hldeq]
      exact if_pos rfl
    · simp [moveTo, hrange]
  · rw [heq]
    refine hdeq.setHeld hldeq hnot ⟨hwf.le, hwf.nonempty, fun e he => ?_⟩
      fun j hj => h.free_of_resume hl (i := l.stop) (by simp [hnone]) hj.1 hj.2
    obtain rfl := Option.some.inj he
    exact ⟨hwf.le, le_rfl, id⟩

theorem resumeAt_locks_of_ne (hne : q ≠ x.1) (conflict : Option Index) :
    (s.resumeAt x conflict).locks q = s.locks q := by
  unfold Table.resumeAt
  split
  · split
    · rfl
    · simp [Table.setHeld, hne]
  · simp [Table.setHeld, hne]

theorem resume_locks_of_ne (hne : q ≠ x.1) : (s.resume x).locks q = s.locks q :=
  resumeAt_locks_of_ne hne _

/-- A waiter that goes on keeps what it holds. -/
theorem Sound.resume_grows (h : s.Sound strict) (hx : x ∈ s.queue) (hlq : s.locks q = some lq) :
    ∃ l', (s.resume x).locks q = some l' ∧ l'.start = lq.start ∧ l'.stop = lq.stop ∧
      lq.pos ≤ l'.pos := by
  by_cases hqx : q = x.1
  · subst hqx
    have hldeq : (s.dequeue x.1).locks x.1 = some lq := hlq
    have hpos := (h.wellFormed _ _ hlq).pos_le_stop
    rcases h.resume_cases hx hlq with ⟨-, heq⟩ | ⟨i, -, hlt, -, heq⟩ | ⟨-, heq⟩
    · exact ⟨lq, by rw [heq, hlq], rfl, rfl, le_rfl⟩
    · refine ⟨{ lq with held := some i }, ?_, rfl, rfl, hlt.le⟩
      rw [heq, enqueue_locks, setHeld_locks _ _ _ _ hldeq, if_pos rfl]
    · refine ⟨{ lq with held := some lq.stop }, ?_, rfl, rfl, hpos⟩
      rw [heq, setHeld_locks _ _ _ _ hldeq, if_pos rfl]
  · exact ⟨lq, by rw [resume_locks_of_ne hqx, hlq], rfl, rfl, le_rfl⟩

theorem Sound.truncate (h : s.Sound strict) (hl : s.locks p = some l)
    (hp : p ∉ s.queue.map Prod.fst) (hstart : l.start ≤ i) (hpos : i ≤ l.pos) :
    (s.truncate p i).Sound strict := by
  have hwf := h.wellFormed p l hl
  simp only [Table.truncate, hl]
  refine h.setHeld hl hp ⟨hwf.le, hwf.nonempty, fun e he => ?_⟩ fun j hj => ?_
  · obtain ⟨-, -, he⟩ := Option.bind_eq_some_iff.mp he
    split at he
    · cases he
    · next hne =>
        obtain rfl := Option.some.inj he
        exact ⟨hstart, hpos.trans hwf.pos_le_stop, fun _ => lt_of_le_of_ne hstart (Ne.symm hne)⟩
  · -- What is left was held before
    obtain ⟨e, he, hle, hlt⟩ := Lock.holds_iff.mp hj
    obtain ⟨-, -, he⟩ := Option.bind_eq_some_iff.mp he
    split at he
    · cases he
    · obtain rfl := Option.some.inj he
      exact h.exclusive p l j hl ⟨hle, hlt.trans_le hpos⟩

/-- What a waiter carries does not matter. -/
theorem Sound.write (h : s.Sound strict) (p : LockPtr) (f : InProgress → InProgress) :
    (s.write p f).Sound strict where
  live_nodup := h.live_nodup
  mem_live := h.mem_live
  wellFormed := h.wellFormed
  exclusive := h.exclusive
  queue_nodup := by simpa [Table.write, Function.comp_def] using h.queue_nodup
  queued y hy := by
    obtain ⟨x, hx, rfl⟩ := List.mem_map.mp hy
    obtain ⟨hparent, hkind, hlock⟩ := h.queued x hx
    exact ⟨by simpa using hparent, by simpa using hkind, by simpa using hlock⟩
  sorted := by
    refine List.pairwise_map.mpr (h.sorted.imp fun {a b} hab => ?_)
    simpa [pendingLe] using hab

/-- The requests that a table accepts. -/
def Admissible (strict : Prop) (p : LockPtr) (range : Range Index) : Prop :=
  range.start ≤ range.stop ∧ (strict ∨ p.kind.isWrite = true → range.start < range.stop)

theorem Sound.add_complete (h : s.Sound strict) (hp : s.locks p = none)
    (hrange : Admissible strict p range) (hnone : s.firstConflict p range = none) :
    (s.add p range (some range.stop)).Sound strict := by
  refine h.add hp ⟨hrange.1, hrange.2, fun e he => ?_⟩ fun j hj => ?_
  · obtain rfl := Option.some.inj he
    exact ⟨hrange.1, le_rfl, id⟩
  · exact h.free_of_firstConflict hj.1 (by rw [hnone]; exact hj.2)

theorem Sound.tryLock (h : s.Sound strict) (hp : s.locks p = none)
    (hrange : Admissible strict p range) : (s.tryLock p range).Sound strict := by
  unfold Table.tryLock
  split
  · exact h
  · next hnone => exact h.add_complete hp hrange hnone

theorem Sound.not_queued (h : s.Sound strict) (hp : s.locks p = none) :
    p ∉ s.queue.map Prod.fst := by
  intro hmem
  obtain ⟨x, hx, rfl⟩ := List.mem_map.mp hmem
  obtain ⟨l, hl, -⟩ := h.exists_lock hx
  rw [hp] at hl
  cases hl

theorem Sound.lock (h : s.Sound strict) (hp : s.locks p = none)
    (hkind : p.kind = .read ∨ p.kind = .write) (hrange : Admissible strict p range)
    (priority : Priority) (inProgress : InProgress) :
    (s.lock p range priority inProgress).Sound strict := by
  unfold Table.lock Table.lockAt
  split
  · next i hi =>
      obtain ⟨hle, hstop⟩ := h.le_firstConflict hi
      set held := if i = range.start then none else some i with hheld
      have hpos : (⟨range.start, range.stop, held⟩ : Lock Index).pos = i := by
        by_cases heq : i = range.start
        · simp [Lock.pos, hheld, heq]
        · simp [Lock.pos, hheld, heq]
      have hadd : (s.add p range held).Sound strict := by
        refine h.add hp ⟨hrange.1, hrange.2, fun e he => ?_⟩ fun j hj => ?_
        · simp only [hheld] at he
          split at he
          · cases he
          · next hne =>
              obtain rfl := Option.some.inj he
              exact ⟨hle, (hstop.resolve_right hne).le, fun _ => lt_of_le_of_ne hle (Ne.symm hne)⟩
        · refine h.free_of_firstConflict hj.1 ?_
          rw [hi]
          exact hj.2.trans_eq hpos
      refine hadd.enqueue (h.not_queued hp)
        ⟨rfl, hkind, ⟨range.start, range.stop, held⟩, ?_, ?_, fun hne => ?_⟩
      · rw [add_locks]
        exact if_pos rfl
      · simp only [hpos]
      · rw [hpos]
        rcases hstop with hstop | rfl
        · exact hstop
        · exact hne
  · next hnone => exact h.add_complete hp hrange hnone

/-! ### Searches that find anything -/

theorem empty_wellLinked : (empty : Table Index Priority InProgress).WellLinked where
  queue_nodup := List.nodup_nil
  queued := by simp [empty]
  sorted := List.Pairwise.nil

theorem WellLinked.not_queued (h : s.WellLinked) (hp : s.locks p = none) :
    p ∉ s.queue.map Prod.fst := by
  intro hmem
  obtain ⟨x, hx, rfl⟩ := List.mem_map.mp hmem
  obtain ⟨-, -, l, hl, -⟩ := h.queued x hx
  rw [hp] at hl
  cases hl

theorem WellLinked.dequeue (h : s.WellLinked) (p : LockPtr) : (s.dequeue p).WellLinked where
  queue_nodup := h.queue_nodup.sublist (List.filter_sublist.map _)
  queued x hx := h.queued x (List.mem_filter.mp hx).1
  sorted := h.sorted.filter _

theorem WellLinked.enqueue (h : s.WellLinked) (hx : x.1 ∉ s.queue.map Prod.fst)
    (hparent : x.2.parent = x.1) (hkind : x.1.kind = .read ∨ x.1.kind = .write)
    (hl : s.locks x.1 = some l) (hrange : x.2.range = ⟨l.pos, l.stop⟩) :
    (s.enqueue x).WellLinked where
  queue_nodup := by
    refine (insertSeq_perm.map Prod.fst).nodup_iff.mpr ?_
    exact List.nodup_cons.mpr ⟨hx, h.queue_nodup⟩
  queued y hy := by
    rcases List.mem_cons.mp (insertSeq_perm.mem_iff.mp hy) with rfl | hy
    · exact ⟨hparent, hkind, l, hl, hrange⟩
    · exact h.queued y hy
  sorted := insertSeq_sorted pendingNodeCallback_consistent h.sorted

/-- A lock that does not wait may change. -/
theorem WellLinked.of_locks (h : s.WellLinked) (hp : p ∉ s.queue.map Prod.fst)
    {s' : Table Index Priority InProgress} (hlocks : ∀ q, q ≠ p → s'.locks q = s.locks q)
    (hqueue : s'.queue = s.queue) : s'.WellLinked where
  queue_nodup := hqueue ▸ h.queue_nodup
  queued y hy := by
    rw [hqueue] at hy
    have hne : y.1 ≠ p := fun heq => hp (heq ▸ List.mem_map_of_mem hy)
    rw [hlocks y.1 hne]
    exact h.queued y hy
  sorted := hqueue ▸ h.sorted

theorem WellLinked.setHeld (h : s.WellLinked) (hp : p ∉ s.queue.map Prod.fst)
    (held : Option Index) : (s.setHeld p held).WellLinked :=
  h.of_locks hp (fun _ hne => Function.update_of_ne hne ..) rfl

theorem WellLinked.add (h : s.WellLinked) (hp : s.locks p = none) (range : Range Index)
    (held : Option Index) : (s.add p range held).WellLinked :=
  h.of_locks (h.not_queued hp) (fun _ hne => Function.update_of_ne hne ..) rfl

theorem WellLinked.forget (h : s.WellLinked) (hp : p ∉ s.queue.map Prod.fst) :
    (s.forget p).WellLinked :=
  h.of_locks hp (fun _ hne => Function.update_of_ne hne ..) rfl

theorem WellLinked.truncate (h : s.WellLinked) (hp : p ∉ s.queue.map Prod.fst) (i : Index) :
    (s.truncate p i).WellLinked := by
  unfold Table.truncate
  split
  · exact h.setHeld hp _
  · exact h

theorem WellLinked.write (h : s.WellLinked) (p : LockPtr) (f : InProgress → InProgress) :
    (s.write p f).WellLinked where
  queue_nodup := by simpa [Table.write, Function.comp_def] using h.queue_nodup
  queued y hy := by
    obtain ⟨x, hx, rfl⟩ := List.mem_map.mp hy
    simpa using h.queued x hx
  sorted := by
    refine List.pairwise_map.mpr (h.sorted.imp fun {a b} hab => ?_)
    simpa [pendingLe] using hab

/-- A waiter stays, moves, or is complete. -/
theorem WellLinked.resumeAt (h : s.WellLinked) (hx : x ∈ s.queue) (conflict : Option Index) :
    (s.resumeAt x conflict).WellLinked := by
  obtain ⟨hparent, hkind, l, hl, hrange⟩ := h.queued x hx
  have hnot := not_mem_dequeue s x.1
  have hset := fun held => (h.dequeue x.1).setHeld hnot held
  have hldeq : (s.dequeue x.1).locks x.1 = some l := hl
  unfold Table.resumeAt
  split
  · next i =>
      split
      · exact h
      · refine (hset (some i)).enqueue hnot hparent hkind (l := { l with held := some i }) ?_ ?_
        · exact (setHeld_locks _ _ _ _ hldeq).trans (if_pos rfl)
        · simp [moveTo, hrange]
  · exact hset _

theorem WellLinked.lockAt (h : s.WellLinked) (hp : s.locks p = none)
    (hkind : p.kind = .read ∨ p.kind = .write) (range : Range Index) (priority : Priority)
    (inProgress : InProgress) (conflict : Option Index) :
    (s.lockAt p range priority inProgress conflict).WellLinked := by
  unfold Table.lockAt
  split
  · next i =>
      set held := if i = range.start then none else some i with hheld
      have hpos : (⟨range.start, range.stop, held⟩ : Lock Index).pos = i := by
        by_cases heq : i = range.start
        · simp [Lock.pos, hheld, heq]
        · simp [Lock.pos, hheld, heq]
      refine (h.add hp range held).enqueue (h.not_queued hp) rfl hkind
        (l := ⟨range.start, range.stop, held⟩) ?_ ?_
      · exact (add_locks _ _ _ _ _).trans (if_pos rfl)
      · rw [hpos]
  · exact h.add hp range _

end Table

end Interlock.Core
