import Interlock.Core.View

/-!
# The searches for borrowed indices

`first_write_borrow_in_range` and `first_read_borrow_in_range` return the least index of the range
that is borrowed.  They do so in every state that a run shows, also in those in the middle of a
release in which `resume_borrow` calls them.
-/

namespace Interlock.Core

open Memory RbTree

variable {Index Priority InProgress : Type} [LinearOrder Index] [LinearOrder Priority]

/-- A lock of the given kind holds `i`. -/
def Store.HeldFor (store : Store Index Priority InProgress) (isWrite : Bool) (core : Addr)
    (i : Index) : Prop :=
  ∃ q, q.kind.isWrite = isWrite ∧ store.Holds core q i

/-- A lock of the given kind holds a region that starts at `i`. -/
def Store.StartsFor (store : Store Index Priority InProgress) (isWrite : Bool) (core : Addr)
    (i : Index) : Prop :=
  ∃ q r, q.kind.isWrite = isWrite ∧ store.parent q = some core ∧ store.region q = some r ∧
    r.start = i

section Searches
variable {debug : Bool} {misuse : Prop} {world : World Index Priority InProgress}
  {tables : Tables Index Priority InProgress} {store : Store Index Priority InProgress}
  {core : Addr} {range : Range Index} {r : Option Index}

/-- Where a request stops is where an index of the range is held first. -/
theorem ModelsWith.isFirst_heldFor (h : Models tables store) (hsound : (tables core).Sound True)
    (hrange : range.start < range.stop) {isWrite : Bool}
    (hr : IsFirst (fun i => ∃ q l, (tables core).locks q = some l ∧ q.kind.isWrite = isWrite ∧
      l.conflict range = some i) r) :
    IsFirst (fun i => range.start ≤ i ∧ i < range.stop ∧ store.HeldFor isWrite core i) r := by
  refine hr.mono ?_ ?_
  · rintro i ⟨q, l, hl, hw, hc⟩
    refine ⟨Lock.le_of_conflict hc, ?_, q, hw, h.holds_iff.mpr ⟨l, hl, ?_⟩⟩
    · rcases Lock.conflict_cases hc with hlt | rfl
      · exact hlt
      · exact hrange
    · exact Lock.holds_of_conflict (hsound.wellFormed q l hl) trivial hc
  · rintro j ⟨hstart, hstop, q, hw, hholds⟩
    obtain ⟨l, hl, hj⟩ := h.holds_iff.mp hholds
    obtain ⟨i, hij, hi⟩ := Lock.conflict_of_holds hj hstart hstop
    exact ⟨i, hij, q, l, hl, hw, hi⟩

/-- If the start of the range is not held, the first held index is where a region starts. -/
theorem ModelsWith.isFirst_startsFor (h : Models tables store) (hsound : (tables core).Sound True)
    {isWrite : Bool} (hfree : ¬ store.HeldFor isWrite core range.start)
    (hr : IsFirst (fun i => range.start ≤ i ∧ i < range.stop ∧ store.HeldFor isWrite core i) r) :
    IsFirst (fun i => range.start ≤ i ∧ i < range.stop ∧ store.StartsFor isWrite core i) r := by
  -- The start of a region is held
  have hholds : ∀ i, store.StartsFor isWrite core i → store.HeldFor isWrite core i := by
    rintro i ⟨q, rq, hw, hparent, hregion, rfl⟩
    obtain ⟨l, hl⟩ := h.exists_lock hparent
    rw [h.region_eq hl] at hregion
    obtain ⟨e, he, rfl⟩ := Option.map_eq_some_iff.mp hregion
    have hwf := hsound.wellFormed q l hl
    have hlt := (hwf.held e he).2.2 (hwf.nonempty (Or.inl trivial))
    exact ⟨q, hw, h.holds_iff.mpr ⟨l, hl, Lock.holds_iff.mpr ⟨e, he, le_rfl, hlt⟩⟩⟩
  have hlower : ∀ j, range.start ≤ j ∧ j < range.stop ∧ store.HeldFor isWrite core j →
      ∃ i ≤ j, range.start ≤ i ∧ i < range.stop ∧ store.StartsFor isWrite core i := by
    rintro j ⟨hstart, hstop, q, hw, hj⟩
    obtain ⟨l, hl, hj⟩ := h.holds_iff.mp hj
    obtain ⟨e, he, hle, hlt⟩ := Lock.holds_iff.mp hj
    have hstarts : store.StartsFor isWrite core l.start :=
      ⟨q, ⟨l.start, e⟩, hw, h.live_iff.mpr ⟨l, hl⟩, by rw [h.region_eq hl, he]; rfl, rfl⟩
    have hbehind : range.start ≤ l.start := by
      by_contra hlt'
      exact hfree ⟨q, hw, h.holds_iff.mpr ⟨l, hl, Lock.holds_iff.mpr
        ⟨e, he, (not_le.mp hlt').le, hstart.trans_lt hlt⟩⟩⟩
    exact ⟨l.start, hle, hbehind, hle.trans_lt hstop, hstarts⟩
  cases r with
  | none => exact fun i hi => hr i ⟨hi.1, hi.2.1, hholds i hi.2.2⟩
  | some k =>
      refine ⟨?_, fun j hj => hr.2 j ⟨hj.1, hj.2.1, hholds j hj.2.2⟩⟩
      obtain ⟨i, hik, hi⟩ := hlower k hr.1
      obtain rfl := le_antisymm hik (hr.2 i ⟨hi.1, hi.2.1, hholds i hi.2.2⟩)
      exact hi

/-- `first_read_borrow_in_range` returns the least index of the range that is held for reading: the
start of the range if it is held, and otherwise the least start of a region in the range.  When the
prefix sum in front of the first endpoint behind the start is zero, this endpoint is a lower
bound. -/
theorem World.Run.firstReadBorrowInRange_exact (run : World.Run debug misuse Nonempty world)
    (hshown : world.Shown store) (core : Addr) (range : Range Index)
    (hrange : range.start < range.stop) (log : Log Index Priority InProgress) :
    (∃ r, firstReadBorrowInRange debug core range ⟨store, log⟩ = .ok r ⟨store, log⟩ ∧
      IsFirst (fun i => range.start ≤ i ∧ i < range.stop ∧ store.HeldFor false core i) r ∧
      (r = some range.start ↔ store.HeldFor false core range.start) ∧
      (¬ store.HeldFor false core range.start → IsFirst
        (fun i => range.start ≤ i ∧ i < range.stop ∧ store.StartsFor false core i) r)) ∧
    ∀ pre x post, InOrder store.read (store.reads core) (pre ++ x :: post) →
      (∀ y ∈ pre, y.2.1 ≤ range.start) → range.start < x.2.1 →
      sumSeq readNodeCallback pre = 0 → x.2.2 = 1 := by
  obtain ⟨tables, hmodels, hsound⟩ := run.shown hshown
  constructor
  · obtain ⟨r, w, hrun, rfl, hr⟩ := firstReadBorrowInRange_spec log hmodels.reads (hsound core)
      (fun (_ : debug = true) => trivial) hrange
    have hheld := hmodels.isFirst_heldFor (hsound core) hrange hr
    refine ⟨r, hrun, hheld, ⟨?_, fun hstart => ?_⟩, fun hfree =>
      hmodels.isFirst_startsFor (hsound core) hfree hheld⟩
    · rintro rfl
      exact hheld.1.2.2
    · exact hheld.unique ⟨⟨le_rfl, hrange, hstart⟩, fun j hj => hj.1⟩
  · intro pre x post hinOrder hpre hx hzero
    obtain ⟨seqs, hforest, hseqs⟩ := hmodels.reads
    obtain ⟨hsorted, hmem⟩ := hseqs core
    have hseq : seqs core = pre ++ x :: post := (hforest.linked core).inOrder.unique hinOrder
    have hnodup := (hforest.linked core).nodup.of_map
    rw [hseq] at hsorted hmem hnodup
    have hpost : ∀ y ∈ x :: post, x.2.1 ≤ y.2.1 := by
      rw [List.pairwise_append, List.pairwise_cons] at hsorted
      intro y hy
      rcases List.mem_cons.mp hy with rfl | hy
      · exact le_rfl
      · exact hsorted.2.1.1 y hy
    have hcount := (hsound core).toInt_sumSeq hmem hnodup hpre fun y hy => hx.trans_le (hpost y hy)
    rw [hzero, show (0 : BitVec 64).toInt = 0 from rfl] at hcount
    have hfree : (tables core).readersAt range.start = [] :=
      List.length_eq_zero_iff.mp (Int.natCast_eq_zero.mp hcount.symm)
    refine ((hsound core).lower_of_no_reader hmem hfree (by simp) hx fun y hy hlt => ?_).2 trivial
    rcases List.mem_append.mp hy with hy | hy
    · exact absurd hlt (not_lt.mpr (hpre y hy))
    · exact hpost y hy

/-- A reader holds `30..40`, and there are endpoints at both ends. -/
theorem firstReadBorrowInRange_exact_tour :
    (∃ r, firstReadBorrowInRange true (slot 0) ⟨20, 35⟩ ⟨(World.after true tour).store, []⟩ =
        .ok r ⟨(World.after true tour).store, []⟩ ∧
      IsFirst (fun i => 20 ≤ i ∧ i < 35 ∧
        (World.after true tour).store.HeldFor false (slot 0) i) r ∧
      (r = some 20 ↔ (World.after true tour).store.HeldFor false (slot 0) 20) ∧
      (¬ (World.after true tour).store.HeldFor false (slot 0) 20 → IsFirst
        (fun i => 20 ≤ i ∧ i < 35 ∧ (World.after true tour).store.StartsFor false (slot 0) i) r)) ∧
    ∀ pre x post, InOrder (World.after true tour).store.read
        ((World.after true tour).store.reads (slot 0)) (pre ++ x :: post) →
      (∀ y ∈ pre, y.2.1 ≤ 20) → 20 < x.2.1 → sumSeq readNodeCallback pre = 0 → x.2.2 = 1 :=
  (tour_run False).firstReadBorrowInRange_exact (Or.inl rfl) (slot 0) ⟨20, 35⟩
    (by decide : 20 < 35) []

/-- `first_write_borrow_in_range` returns the least index of the range that is held for writing.
The regions of writers are sorted by their ends too, as the search needs. -/
theorem World.Run.firstWriteBorrowInRange_exact (run : World.Run debug misuse Nonempty world)
    (hshown : world.Shown store) (core : Addr) (range : Range Index)
    (hrange : range.start < range.stop) (log : Log Index Priority InProgress) :
    (∃ r, firstWriteBorrowInRange core range ⟨store, log⟩ = .ok r ⟨store, log⟩ ∧
      IsFirst (fun i => range.start ≤ i ∧ i < range.stop ∧ store.HeldFor true core i) r) ∧
    ∀ seq, InOrder store.write (store.writes core) seq →
      seq.Pairwise fun x y => range.start < x.2.stop → range.start < y.2.stop := by
  obtain ⟨tables, hmodels, hsound⟩ := run.shown hshown
  constructor
  · obtain ⟨r, w, hrun, rfl, hr⟩ := firstWriteBorrowInRange_spec log hmodels.writes (hsound core)
    exact ⟨r, hrun, hmodels.isFirst_heldFor (hsound core) hrange hr⟩
  · intro seq hinOrder
    obtain ⟨seqs, hforest, hseqs⟩ := hmodels.writes
    obtain ⟨hsorted, hmem⟩ := hseqs core
    obtain rfl : seqs core = seq := (hforest.linked core).inOrder.unique hinOrder
    refine ((hsound core).writes_sorted (fun x hx => (hmem x).mp hx) (hforest.linked core).nodup
      hsorted).imp fun hle hlt => hlt.trans_le hle

/-- A writer holds `0..10`. -/
theorem firstWriteBorrowInRange_exact_tour :
    (∃ r, firstWriteBorrowInRange (slot 0) ⟨7, 35⟩ ⟨(World.after true tour).store, []⟩ =
        .ok r ⟨(World.after true tour).store, []⟩ ∧
      IsFirst (fun i => 7 ≤ i ∧ i < 35 ∧
        (World.after true tour).store.HeldFor true (slot 0) i) r) ∧
    ∀ seq, InOrder (World.after true tour).store.write
        ((World.after true tour).store.writes (slot 0)) seq →
      seq.Pairwise fun x y => 7 < x.2.stop → 7 < y.2.stop :=
  (tour_run False).firstWriteBorrowInRange_exact (Or.inl rfl) (slot 0) ⟨7, 35⟩
    (by decide : 7 < 35) []

end Searches

end Interlock.Core
