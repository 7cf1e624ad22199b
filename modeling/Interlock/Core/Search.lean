import Interlock.Core.Layout

/-!
# The searches of a core

Both searches for conflicts find the first one.  The tree of writers is sorted by `start` only, but
it is searched by `end`; this works because regions of writers are not empty and do not overlap.
The tree of readers is searched for the first endpoint behind an index, and the sum of what comes
before tells how many readers hold that index.
-/

namespace Interlock.Core

open Memory RbTree

variable {Index Priority InProgress : Type} [LinearOrder Index] [LinearOrder Priority]

/-! ## Counting lock states -/

def LockKind.code : LockKind → ℕ
  | .read => 0
  | .write => 1
  | .tryRead => 2
  | .tryWrite => 3

theorem LockKind.code_lt (kind : LockKind) : kind.code < 4 := by
  cases kind <;> decide

theorem LockKind.code_injective : Function.Injective LockKind.code := by
  intro kind kind' heq
  cases kind <;> cases kind' <;> first | rfl | cases heq

/-- A number for each lock state. -/
def LockPtr.code (p : LockPtr) : ℕ := p.kind.code * 2 ^ 61 + p.addr.word

theorem LockPtr.code_injective : Function.Injective LockPtr.code := by
  intro p p' heq
  obtain ⟨kind, word, hpos, hbound⟩ := p
  obtain ⟨kind', word', hpos', hbound'⟩ := p'
  simp only [LockPtr.code] at heq
  have hkind : kind.code = kind'.code := by omega
  obtain rfl : word = word' := by omega
  rw [LockKind.code_injective hkind]

/-- There are fewer lock states than the positive range of `isize`. -/
theorem LockPtr.length_lt {ps : List LockPtr} (hnodup : ps.Nodup) : ps.length < 2 ^ 63 := by
  have hsub : ps.map LockPtr.code ⊆ List.range' 1 (2 ^ 63 - 1) := by
    intro n hn
    obtain ⟨p, -, rfl⟩ := List.mem_map.mp hn
    have hkind := p.kind.code_lt
    have hpos := p.addr.nonNull
    have hbound := p.addr.bounded
    rw [List.mem_range'_1, LockPtr.code]
    omega
  have hle := (List.subperm_of_subset (hnodup.map LockPtr.code_injective) hsub).length_le
  rw [List.length_map, List.length_range'] at hle
  omega

section Conflicts
variable {debug : Bool} {strict : Prop} {core : Addr} {stray : Stray}
  {tables : Addr → Table Index Priority InProgress} {store : Store Index Priority InProgress}
  {log : Log Index Priority InProgress} {range : Range Index}

theorem compare_then_gt {a b : Index} : (compare a b).then .gt ≠ .gt ↔ a < b := by
  rcases lt_trichotomy a b with hlt | heq | hgt
  · simp [compare_lt_iff_lt.mpr hlt, hlt]
  · simp [heq]
  · simp [compare_gt_iff_gt.mpr hgt, hgt.le]

/-! ## Writers -/

/-- A writer stops a request for `range` at `i`. -/
def Table.WriteConflictAt (s : Table Index Priority InProgress) (range : Range Index) (i : Index) :
    Prop :=
  ∃ q l, s.locks q = some l ∧ q.kind.isWrite = true ∧ l.conflict range = some i

/-- Regions of writers, sorted by their starts, are sorted by their ends. -/
theorem Table.Sound.writes_sorted {s : Table Index Priority InProgress} (h : s.Sound strict)
    {seq : List (LockPtr × Range Index)} (hmem : ∀ x ∈ seq, s.WriteEntry x)
    (hnodup : (seq.map Prod.fst).Nodup) (hsorted : seq.Pairwise fun x y => x.2.start ≤ y.2.start) :
    seq.Pairwise fun x y => x.2.stop ≤ y.2.stop := by
  refine ((List.pairwise_map.mp hnodup).and hsorted).imp_of_mem ?_
  rintro ⟨p, rp⟩ ⟨q, rq⟩ hp hq ⟨hne, hle⟩
  obtain ⟨lp, ep, hlp, hwp, hep, rfl⟩ := hmem _ hp
  obtain ⟨lq, eq, hlq, hwq, heq, rfl⟩ := hmem _ hq
  by_contra hlt
  rw [not_le] at hlt
  have hqwf := h.wellFormed _ _ hlq
  have hq : lq.start < eq := (hqwf.held eq heq).2.2 (hqwf.nonempty (Or.inr hwq))
  -- Otherwise both hold the start of the second region
  have hpholds : lp.Holds lq.start := Lock.holds_iff.mpr ⟨ep, hep, hle, hq.trans hlt⟩
  have hqholds : lq.Holds lq.start := Lock.holds_iff.mpr ⟨eq, heq, le_rfl, hq⟩
  exact h.exclusive _ _ _ hlp hpholds _ _ (Ne.symm hne) hlq (by simp [conflicting, hwp]) hqholds

theorem firstWriteBorrowInRange_spec (log : Log Index Priority InProgress)
    (h : WritesModel stray tables store.writes store.write)
    (hsound : (tables core).Sound strict) :
    Runs (firstWriteBorrowInRange core range) ⟨store, log⟩ fun r w =>
      w = ⟨store, log⟩ ∧ IsFirst ((tables core).WriteConflictAt range) r := by
  obtain ⟨seqs, hforest, hseqs⟩ := h
  obtain ⟨hsorted, hmem⟩ := hseqs core
  have hlinked := hforest.linked core
  have hstops := hsound.writes_sorted (fun x hx => (hmem x).mp hx) hlinked.nodup hsorted
  -- A conflict is an entry that ends behind the start of the range and starts in front of its end
  have hconf : ∀ i, (tables core).WriteConflictAt range i ↔ ∃ x ∈ seqs core,
      range.start < x.2.stop ∧ x.2.start < range.stop ∧ max x.2.start range.start = i := by
    intro i
    constructor
    · rintro ⟨q, l, hl, hw, hc⟩
      obtain ⟨e, he, hstop, hstart, rfl⟩ := Lock.conflict_eq_some.mp hc
      exact ⟨(q, ⟨l.start, e⟩), (hmem _).mpr ⟨l, e, hl, hw, he, rfl⟩, hstart, hstop, rfl⟩
    · rintro ⟨⟨q, r⟩, hx, hstart, hstop, rfl⟩
      obtain ⟨l, e, hl, hw, he, rfl⟩ := (hmem _).mp hx
      exact ⟨q, l, hl, hw, Lock.conflict_eq_some.mpr ⟨e, he, hstop, hstart, rfl⟩⟩
  simp only [firstWriteBorrowInRange, runs_bind, runs_onWrites]
  refine (hlinked.lowerBound (hstops.imp ?_)).mono ?_
  · intro a b hab hb
    by_contra ha
    exact compare_then_gt.mpr ((compare_then_gt.mp ha).trans_le hab) hb
  rintro r mem ⟨rfl, rfl⟩
  simp only [setWriteTree_self]
  cases hfind : (seqs core).find? fun x => (compare range.start x.2.stop).then .gt ≠ .gt with
  | none =>
      simp only [Option.map_none, runs_pure, true_and]
      rintro i hi
      obtain ⟨x, hx, hstart, -⟩ := (hconf i).mp hi
      simpa [compare_then_gt.mpr hstart] using List.find?_eq_none.mp hfind x hx
  | some x =>
      obtain ⟨hstart, pre, post, hseq, hpre⟩ := List.find?_eq_some_iff_append.mp hfind
      have hx : x ∈ seqs core := by simp [hseq]
      obtain ⟨n, hn, helement⟩ := hlinked.get hx
      rw [decide_eq_true_eq, compare_then_gt] at hstart
      -- Every other candidate comes later
      have hfirst : ∀ y ∈ seqs core, range.start < y.2.stop → x.2.start ≤ y.2.start := by
        intro y hy hystart
        rw [hseq, List.mem_append, List.mem_cons] at hy
        rw [hseq, List.pairwise_append, List.pairwise_cons] at hsorted
        rcases hy with hy | rfl | hy
        · simpa [compare_then_gt.mpr hystart] using hpre y hy
        · exact le_rfl
        · exact hsorted.2.1.1 y hy
      simp only [Option.map_some, runs_bind, runs_onWrites, runs_load, hn, Option.some.injEq,
        exists_eq_left', setWriteTree_self, helement]
      split
      · next hstop =>
          rw [runs_pure]
          refine ⟨rfl, (hconf _).mpr ⟨x, hx, hstart, hstop, rfl⟩, fun j hj => ?_⟩
          obtain ⟨y, hy, hystart, -, rfl⟩ := (hconf j).mp hj
          exact max_le_max_right _ (hfirst y hy hystart)
      · next hstop =>
          rw [runs_pure]
          refine ⟨rfl, fun j hj => ?_⟩
          obtain ⟨y, hy, hystart, hystop, -⟩ := (hconf j).mp hj
          exact hstop ((hfirst y hy hystart).trans_lt hystop)

/-! ## Readers -/

/-- A reader stops a request for `range` at `i`. -/
def Table.ReadConflictAt (s : Table Index Priority InProgress) (range : Range Index) (i : Index) :
    Prop :=
  ∃ q l, s.locks q = some l ∧ q.kind.isWrite = false ∧ l.conflict range = some i

/-- The two endpoints of a reader. -/
def Table.readEntries (s : Table Index Priority InProgress) (q : LockPtr) :
    List (ReadPtr × (Index × Int)) :=
  match s.locks q with
  | some l =>
      match l.held with
      | some e =>
          if q.kind.isWrite then [] else [((q, false), (l.start, 1)), ((q, true), (e, -1))]
      | none => []
  | none => []

/-- Does `q` hold the index for reading? -/
def Table.readsAt (s : Table Index Priority InProgress) (i : Index) (q : LockPtr) : Bool :=
  match s.locks q with
  | some l => !q.kind.isWrite && decide (l.start ≤ i ∧ i < l.pos)
  | none => false

/-- The readers that hold an index. -/
def Table.readersAt (s : Table Index Priority InProgress) (i : Index) : List LockPtr :=
  s.live.filter (s.readsAt i)

theorem Table.mem_readersAt {s : Table Index Priority InProgress} (h : s.Sound strict) {i : Index}
    {q : LockPtr} :
    q ∈ s.readersAt i ↔ ∃ l, s.locks q = some l ∧ q.kind.isWrite = false ∧ l.Holds i := by
  simp only [readersAt, readsAt, List.mem_filter, h.mem_live]
  cases hl : s.locks q with
  | none => simp
  | some l => simp [Lock.Holds]

omit [LinearOrder Index] [LinearOrder Priority] in
theorem Table.mem_readEntries {s : Table Index Priority InProgress} {q : LockPtr}
    {x : ReadPtr × (Index × Int)} : x ∈ s.readEntries q ↔ x.1.1 = q ∧ s.ReadEntry x := by
  obtain ⟨⟨p, side⟩, y⟩ := x
  simp only [readEntries, ReadEntry]
  cases hl : s.locks q with
  | none =>
      simp only [List.not_mem_nil, false_iff, not_and, not_exists]
      rintro rfl
      simp [hl]
  | some l =>
      cases hheld : l.held with
      | none =>
          simp only [hheld, List.not_mem_nil, false_iff]
          rintro ⟨rfl, l', e, hl', -, he, -⟩
          obtain rfl := Option.some.inj (hl.symm.trans hl')
          rw [hheld] at he
          cases he
      | some e =>
          cases hw : q.kind.isWrite with
          | true =>
              simp only [hheld, if_true, List.not_mem_nil, false_iff, not_and, not_exists]
              rintro rfl
              simp [hw]
          | false =>
              simp only [hheld, Bool.false_eq_true, if_false, List.mem_cons, List.not_mem_nil,
                or_false, Prod.mk.injEq]
              constructor
              · rintro (⟨⟨rfl, rfl⟩, rfl⟩ | ⟨⟨rfl, rfl⟩, rfl⟩)
                · exact ⟨rfl, l, e, hl, hw, hheld, rfl⟩
                · exact ⟨rfl, l, e, hl, hw, hheld, rfl⟩
              · rintro ⟨rfl, l', e', hl', -, he', hy⟩
                obtain rfl := Option.some.inj (hl.symm.trans hl')
                obtain rfl := Option.some.inj (hheld.symm.trans he')
                cases side <;> simp [hy]

theorem sumSeq_readNode (xs : List (ReadPtr × (Index × Int))) :
    sumSeq readNodeCallback xs = BitVec.ofInt 64 (xs.map fun x => x.2.2).sum := by
  induction xs with
  | nil => rfl
  | cons x xs ih =>
      rw [List.map_cons, List.sum_cons, BitVec.ofInt_add, ← ih]
      rfl

/-- The endpoints up to an index sum up to the number of readers that hold the index. -/
theorem Table.Sound.sum_eq {s : Table Index Priority InProgress} (h : s.Sound strict)
    {seq : List (ReadPtr × (Index × Int))} (hmem : ∀ x, x ∈ seq ↔ s.ReadEntry x)
    (hnodup : seq.Nodup) (i : Index) :
    ((seq.filter fun x => x.2.1 ≤ i).map fun x => x.2.2).sum = ((s.readersAt i).length : ℤ) := by
  have hperm : seq.Perm (s.live.flatMap s.readEntries) := by
    refine (List.perm_ext_iff_of_nodup hnodup (List.nodup_flatMap.mpr ⟨fun q _ => ?_, ?_⟩)).mpr ?_
    · unfold readEntries
      split
      · split
        · split <;> simp
        · exact List.nodup_nil
      · exact List.nodup_nil
    · refine h.live_nodup.imp fun {p q} hne x hp hq => hne ?_
      rw [← (mem_readEntries.mp hp).1, (mem_readEntries.mp hq).1]
    · intro x
      rw [hmem, List.mem_flatMap]
      constructor
      · intro hx
        obtain ⟨l, e, hl, -⟩ := id hx
        exact ⟨x.1.1, (h.mem_live _).mpr ⟨l, hl⟩, mem_readEntries.mpr ⟨rfl, hx⟩⟩
      · rintro ⟨q, -, hq⟩
        exact (mem_readEntries.mp hq).2
  rw [((hperm.filter _).map _).sum_eq]
  -- Each reader adds one if it holds the index, and nothing otherwise
  have hone : ∀ q, (((s.readEntries q).filter fun x => x.2.1 ≤ i).map fun x => x.2.2).sum =
      if s.readsAt i q then 1 else 0 := by
    intro q
    cases hl : s.locks q with
    | none => simp [readEntries, readsAt, hl]
    | some l =>
        cases hheld : l.held with
        | none => simp [readEntries, readsAt, hl, hheld, Lock.pos]
        | some e =>
            have hle := ((h.wellFormed q l hl).held e hheld).1
            cases hw : q.kind.isWrite with
            | true => simp [readEntries, readsAt, hl, hheld, hw]
            | false =>
                simp only [readEntries, readsAt, hl, hheld, hw, Lock.pos]
                by_cases hei : e ≤ i
                · simp [hei, hle.trans hei]
                · by_cases hsi : l.start ≤ i
                  · simp [hei, hsi]
                  · simp [hei, hsi]
  unfold readersAt
  generalize s.live = live
  induction live with
  | nil => rfl
  | cons q live ih =>
      rw [List.flatMap_cons, List.filter_append, List.map_append, List.sum_append, hone, ih,
        List.filter_cons]
      by_cases hq : s.readsAt i q
      · simp [hq, Int.add_comm]
      · simp [hq]

section Endpoints
variable {s : Table Index Priority InProgress} {seq pre post : List (ReadPtr × (Index × Int))}
  {x : ReadPtr × (Index × Int)} {i : Index}

/-- The prefix sum in front of the first endpoint behind `i` counts the readers that hold `i`. -/
theorem Table.Sound.toInt_sumSeq (h : s.Sound strict)
    (hmem : ∀ x, x ∈ pre ++ post ↔ s.ReadEntry x) (hnodup : (pre ++ post).Nodup)
    (hpre : ∀ y ∈ pre, y.2.1 ≤ i) (hpost : ∀ y ∈ post, i < y.2.1) :
    (sumSeq readNodeCallback pre).toInt = ((s.readersAt i).length : ℤ) := by
  have hfilter : (pre ++ post).filter (fun y => y.2.1 ≤ i) = pre := by
    rw [List.filter_append, List.filter_eq_self.mpr fun y hy => by simpa using hpre y hy,
      List.filter_eq_nil_iff.mpr fun y hy => by simpa using hpost y hy, List.append_nil]
  have hsum : sumSeq readNodeCallback pre = BitVec.ofInt 64 ((s.readersAt i).length : ℤ) := by
    rw [← h.sum_eq hmem hnodup i, hfilter, sumSeq_readNode]
  have hlength : (s.readersAt i).length < 2 ^ 63 := LockPtr.length_lt (h.live_nodup.filter _)
  rw [hsum, BitVec.toInt_ofInt_eq_self (by decide) (by omega) (by omega)]

/-- Where no reader holds `i`, a region that ends behind `i` also starts behind it. -/
theorem Table.Sound.start_of_no_reader (h : s.Sound strict)
    (hmem : ∀ x, x ∈ seq ↔ s.ReadEntry x) (hfree : s.readersAt i = [])
    (hfirst : ∀ y ∈ seq, i < y.2.1 → x.2.1 ≤ y.2.1) {q : LockPtr} {l : Lock Index} {e : Index}
    (hl : s.locks q = some l) (hw : q.kind.isWrite = false) (he : l.held = some e) (hlt : i < e) :
    i < l.start ∧ x.2.1 ≤ l.start := by
  have hstart : i < l.start := by
    by_contra hle
    have hq : q ∈ s.readersAt i := (Table.mem_readersAt h).mpr
      ⟨l, hl, hw, Lock.holds_iff.mpr ⟨e, he, not_lt.mp hle, hlt⟩⟩
    rw [hfree] at hq
    exact List.not_mem_nil hq
  exact ⟨hstart, hfirst ((q, false), (l.start, 1)) ((hmem _).mpr ⟨l, e, hl, hw, he, rfl⟩) hstart⟩

/-- Then the first endpoint behind `i` is the start of a region.  Without empty ranges it is stored
as a lower bound. -/
theorem Table.Sound.lower_of_no_reader (h : s.Sound strict)
    (hmem : ∀ x, x ∈ seq ↔ s.ReadEntry x) (hfree : s.readersAt i = []) (hx : x ∈ seq)
    (hix : i < x.2.1) (hfirst : ∀ y ∈ seq, i < y.2.1 → x.2.1 ≤ y.2.1) :
    (∃ l e, s.locks x.1.1 = some l ∧ x.1.1.kind.isWrite = false ∧ l.held = some e ∧
      x.2.1 = l.start) ∧ (strict → x.2.2 = 1) := by
  obtain ⟨l, e, hl, hw, he, hxe⟩ := (hmem x).mp hx
  have hwf := h.wellFormed _ l hl
  have hlt : i < e := by
    cases hside : x.1.2 with
    | false =>
        rw [hxe, hside] at hix
        exact lt_of_lt_of_le hix (hwf.held e he).1
    | true =>
        rw [hxe, hside] at hix
        exact hix
  have hle := (h.start_of_no_reader hmem hfree hfirst hl hw he hlt).2
  have hstart : x.2.1 = l.start := by
    refine le_antisymm hle ?_
    rw [hxe]
    split
    · exact (hwf.held e he).1
    · exact le_rfl
  refine ⟨⟨l, e, hl, hw, he, hstart⟩, fun hstrict => ?_⟩
  cases hside : x.1.2 with
  | false => simp [hxe, hside]
  | true =>
      -- It cannot be the end of a region as well
      rw [hxe, hside] at hstart
      exact absurd hstart ((hwf.held e he).2.2 (hwf.nonempty (Or.inl hstrict))).ne'

end Endpoints

theorem firstReadBorrowInRange_spec (log : Log Index Priority InProgress)
    (h : ReadsModel stray tables store.reads store.read)
    (hsound : (tables core).Sound strict) (hdebug : debug = true → strict)
    (hrange : range.start < range.stop) :
    Runs (firstReadBorrowInRange debug core range) ⟨store, log⟩ fun r w =>
      w = ⟨store, log⟩ ∧ IsFirst ((tables core).ReadConflictAt range) r := by
  obtain ⟨seqs, hforest, hseqs⟩ := h
  obtain ⟨hsorted, hmem⟩ := hseqs core
  have hlinked := hforest.linked core
  simp only [firstReadBorrowInRange, runs_bind, runs_onReads]
  refine (hlinked.lowerBound (hsorted.imp ?_)).mono ?_
  · intro a b hab hb
    by_contra ha
    exact compare_then_gt.mpr ((compare_then_gt.mp ha).trans_le hab) hb
  rintro r mem ⟨rfl, rfl⟩
  simp only [setReadTree_self]
  cases hfind : (seqs core).find? fun x => (compare range.start x.2.1).then .gt ≠ .gt with
  | none =>
      -- No endpoint lies behind the start of the range
      simp only [Option.map_none, runs_pure, true_and]
      rintro i ⟨q, l, hl, hw, hc⟩
      obtain ⟨e, he, -, hstart, -⟩ := Lock.conflict_eq_some.mp hc
      have hx : ((q, true), (e, (-1 : ℤ))) ∈ seqs core := (hmem _).mpr ⟨l, e, hl, hw, he, rfl⟩
      simpa [compare_then_gt.mpr hstart] using List.find?_eq_none.mp hfind _ hx
  | some x =>
      obtain ⟨hstart, pre, post, hseq, hpre⟩ := List.find?_eq_some_iff_append.mp hfind
      have hx : x ∈ seqs core := by simp [hseq]
      obtain ⟨n, hn, helement⟩ := hlinked.get hx
      rw [decide_eq_true_eq, compare_then_gt] at hstart
      have hpre_le : ∀ y ∈ pre, y.2.1 ≤ range.start := by
        intro y hy
        by_contra hlt
        simpa [compare_then_gt.mpr (not_le.mp hlt)] using hpre y hy
      have hpost : ∀ y ∈ x :: post, x.2.1 ≤ y.2.1 := by
        rw [hseq, List.pairwise_append, List.pairwise_cons] at hsorted
        intro y hy
        rcases List.mem_cons.mp hy with rfl | hy
        · exact le_rfl
        · exact hsorted.2.1.1 y hy
      -- Every endpoint behind the start of the range comes later
      have hfirst : ∀ y ∈ seqs core, range.start < y.2.1 → x.2.1 ≤ y.2.1 := by
        intro y hy hystart
        rw [hseq, List.mem_append] at hy
        rcases hy with hy | hy
        · exact absurd hystart (not_lt.mpr (hpre_le y hy))
        · exact hpost y hy
      have hlinked' := hlinked
      rw [hseq] at hlinked'
      have htoInt := hsound.toInt_sumSeq (hseq ▸ hmem) (hseq ▸ hlinked.nodup.of_map) hpre_le
        fun y hy => hstart.trans_le (hpost y hy)
      simp only [Option.map_some, runs_bind, runs_onReads, runs_load, hn, Option.some.injEq,
        exists_eq_left', setReadTree_self, helement, runs_debugAssert]
      refine ⟨fun _ => by simpa using hstart, ?_⟩
      refine hlinked'.prefixSum.mono ?_
      rintro sum mem ⟨rfl, rfl⟩
      simp only [setReadTree_self, htoInt]
      split
      · next hpos =>
          -- Some reader holds the start of the range
          rw [runs_pure]
          refine ⟨rfl, ?_, ?_⟩
          · obtain ⟨q, hq⟩ := List.exists_mem_of_length_pos (Int.natCast_pos.mp hpos)
            obtain ⟨l, hl, hw, hholds⟩ := (Table.mem_readersAt hsound).mp hq
            obtain ⟨j, hj, hc⟩ := Lock.conflict_of_holds hholds le_rfl hrange
            obtain rfl := le_antisymm hj (Lock.le_of_conflict hc)
            exact ⟨q, l, hl, hw, hc⟩
          · intro j hj
            obtain ⟨_, _, _, _, hc⟩ := hj
            exact Lock.le_of_conflict hc
      · next hzero =>
          have hfree : (tables core).readersAt range.start = [] :=
            List.length_eq_zero_iff.mp (by omega)
          obtain ⟨⟨l, e, hl, hw, he, hxstart⟩, hlower⟩ :=
            hsound.lower_of_no_reader hmem hfree hx hstart hfirst
          rw [runs_bind, runs_debugAssert]
          refine ⟨fun hd => by simp [hlower (hdebug hd)], ?_⟩
          have hmin : ∀ j, (tables core).ReadConflictAt range j →
              x.2.1 ≤ j ∧ x.2.1 < range.stop := by
            rintro j ⟨q, l', hl', hw', hc⟩
            obtain ⟨e', he', hstop, hlt, rfl⟩ := Lock.conflict_eq_some.mp hc
            have hle := (hsound.start_of_no_reader hmem hfree hfirst hl' hw' he' hlt).2
            exact ⟨hle.trans (le_max_left _ _), hle.trans_lt hstop⟩
          by_cases hstop : x.2.1 < range.stop
          · simp only [hstop, if_true, runs_pure]
            refine ⟨trivial, ⟨_, l, hl, hw, Lock.conflict_eq_some.mpr ⟨e, he, ?_, ?_, ?_⟩⟩,
              fun j hj => (hmin j hj).1⟩
            · exact hxstart ▸ hstop
            · exact (hxstart ▸ hstart).trans_le ((hsound.wellFormed _ l hl).held e he).1
            · rw [hxstart]
              exact max_eq_left (hxstart ▸ hstart).le
          · simp only [hstop, if_false, runs_pure, true_and]
            exact fun j hj => hstop (hmin j hj).2

/-! ## Conflicts of a request -/

theorem lowerConflict_none_right (r : Option Index) : lowerConflict r none = r := by
  cases r <;> rfl

theorem lowerConflict_isSome (r r' : Option Index) :
    (lowerConflict r r').isSome = (r.isSome || r'.isSome) := by
  cases r <;> cases r' <;> rfl

omit [LinearOrder Priority] in
theorem Table.conflictAt_iff {s : Table Index Priority InProgress} {p : LockPtr} {i : Index} :
    s.ConflictAt p range i ↔
      s.WriteConflictAt range i ∨ p.kind.isWrite = true ∧ s.ReadConflictAt range i := by
  constructor
  · rintro ⟨q, l, hl, hconf, hc⟩
    cases hq : q.kind.isWrite with
    | true => exact Or.inl ⟨q, l, hl, hq, hc⟩
    | false =>
        rw [conflicting, hq, Bool.or_false] at hconf
        exact Or.inr ⟨hconf, q, l, hl, hq, hc⟩
  · rintro (⟨q, l, hl, hq, hc⟩ | ⟨hp, q, l, hl, -, hc⟩)
    · exact ⟨q, l, hl, by simp [conflicting, hq], hc⟩
    · exact ⟨q, l, hl, by simp [conflicting, hp], hc⟩

/-- A reader has to look for writers only. -/
theorem firstConflict_read_spec {p : LockPtr}
    (hwrites : WritesModel stray tables store.writes store.write)
    (hsound : (tables core).Sound strict) (hp : p.kind.isWrite = false) :
    Runs (firstWriteBorrowInRange core range) ⟨store, log⟩ fun r w =>
      w = ⟨store, log⟩ ∧ r = (tables core).firstConflict p range := by
  refine (firstWriteBorrowInRange_spec log hwrites hsound).mono ?_
  rintro r w ⟨rfl, hr⟩
  refine ⟨rfl, (hr.congr fun i => ?_).unique (hsound.firstConflict_isFirst p range)⟩
  simp [Table.conflictAt_iff, hp]

/-- A writer has to look for both. -/
theorem firstConflict_write_spec {p : LockPtr}
    (hwrites : WritesModel stray tables store.writes store.write)
    (hreads : ReadsModel stray tables store.reads store.read) (hsound : (tables core).Sound strict)
    (hdebug : debug = true → strict) (hrange : range.start < range.stop)
    (hp : p.kind.isWrite = true) :
    Runs (firstWriteBorrowInRange core range) ⟨store, log⟩ fun r w => w = ⟨store, log⟩ ∧
      Runs (firstReadBorrowInRange debug core range) w fun r' w => w = ⟨store, log⟩ ∧
        lowerConflict r r' = (tables core).firstConflict p range := by
  refine (firstWriteBorrowInRange_spec log hwrites hsound).mono ?_
  rintro r w ⟨rfl, hr⟩
  refine ⟨rfl, (firstReadBorrowInRange_spec log hreads hsound hdebug hrange).mono ?_⟩
  rintro r' w ⟨rfl, hr'⟩
  refine ⟨rfl, ((hr.lower hr').congr fun i => ?_).unique (hsound.firstConflict_isFirst p range)⟩
  simp [Table.conflictAt_iff, hp]

end Conflicts

/-! ## Waiters -/

section Waiters
variable {debug : Bool} {strict : Prop} {core : Addr} {stray : Stray}
  {tables : Addr → Table Index Priority InProgress} {store : Store Index Priority InProgress}
  {log : Log Index Priority InProgress} {start stop : Index} {lock : LockPtr}
  {l : Lock Index} {x : LockPtr × Pending Index Priority InProgress}
  {queue visits : List (LockPtr × Pending Index Priority InProgress)}

theorem runs_loadPending (h : PendingsModel stray tables store.pendings store.pending)
    (hx : x ∈ (tables core).queue)
    {post : PendingNode Index Priority InProgress → World Index Priority InProgress → Prop}
    (hpost : ∀ n, n.element = x.2 → post n ⟨store, log⟩) :
    Runs (onPendings core (Node.load x.1)) ⟨store, log⟩ post := by
  obtain ⟨n, hn, helement⟩ := Forest.get_isSome h hx
  simpa [hn] using hpost n helement

/-- What `filterFrom` makes of the end of a part of the queue. -/
theorem filterFrom_spec (h : PendingsModel stray tables store.pendings store.pending)
    (hqueue : ∀ x ∈ queue, x ∈ (tables core).queue) :
    Runs (filterFrom core start (queue.getLast?.map Prod.fst)) ⟨store, log⟩ fun r w =>
      w = ⟨store, log⟩ ∧
        r = (queue.getLast?.filter fun x => start ≤ x.2.range.start).map Prod.fst := by
  cases hlast : queue.getLast? with
  | none => simp [filterFrom]
  | some x =>
      simp only [filterFrom, Option.map_some, runs_bind]
      refine runs_loadPending h (hqueue x (List.mem_of_getLast? hlast)) fun n hn => ?_
      by_cases hle : start ≤ x.2.range.start
      · simp [hn, hle, Option.filter]
      · simp [hn, hle, Option.filter]

omit [LinearOrder Priority] in
/-- Among waiters in front of a region and waiters in it, the last one in it is found. -/
theorem getLast?_filter {pre : List (LockPtr × Pending Index Priority InProgress)}
    (hpre : ∀ x ∈ pre, x.2.range.start < start) (hvisits : ∀ x ∈ visits, start ≤ x.2.range.start) :
    ((pre ++ visits.reverse).getLast?.filter fun x => start ≤ x.2.range.start) = visits.head? := by
  cases visits with
  | nil =>
      rw [List.reverse_nil, List.append_nil, List.head?_nil]
      cases hlast : pre.getLast? with
      | none => rfl
      | some x => simp [Option.filter, hpre x (List.mem_of_getLast? hlast)]
  | cons x visits =>
      have hlast : (pre ++ (x :: visits).reverse).getLast? = some x := by simp
      rw [hlast]
      simp [Option.filter, hvisits x (by simp)]

omit [LinearOrder Priority] in
theorem getLast?_filter_of_sorted
    (hsorted : queue.Pairwise fun x y => x.2.range.start ≤ y.2.range.start) :
    (queue.getLast?.filter fun x => start ≤ x.2.range.start) =
      (queue.filter fun x => start ≤ x.2.range.start).getLast? := by
  rcases List.eq_nil_or_concat queue with rfl | ⟨pre, x, rfl⟩
  · rfl
  · rw [List.concat_eq_append] at hsorted ⊢
    rw [List.getLast?_concat, List.filter_append]
    by_cases hx : start ≤ x.2.range.start
    · simp [Option.filter, hx]
    · have hpre : (pre.filter fun y => start ≤ y.2.range.start) = [] := by
        refine List.filter_eq_nil_iff.mpr fun y hy => ?_
        have hle := (List.pairwise_append.mp hsorted).2.2 y hy x (List.mem_singleton_self x)
        simpa using hle.trans_lt (not_le.mp hx)
      simp [Option.filter, hx, hpre]

/-- The search for the first waiter to visit. -/
theorem lastPendingIn_spec (log : Log Index Priority InProgress)
    (h : PendingsModel stray tables store.pendings store.pending) (hwell : (tables core).WellLinked)
    (hl : (tables core).locks lock = some l) :
    Runs (lastPendingIn core l.start l.pos) ⟨store, log⟩ fun r w => w = ⟨store, log⟩ ∧
      r = ((tables core).waitersOf lock).head?.map Prod.fst := by
  have hlinked := Forest.linked h core
  have hsorted : (tables core).queue.Pairwise fun x y => x.2.range.start ≤ y.2.range.start :=
    hwell.sorted.imp pendingLe.start_le
  obtain ⟨front, hfront⟩ : ∃ front, front =
      (tables core).queue.filter fun x => x.2.range.start < l.pos := ⟨_, rfl⟩
  obtain ⟨back, hback⟩ : ∃ back, back =
      (tables core).queue.filter fun x => l.pos ≤ x.2.range.start := ⟨_, rfl⟩
  have hlast : ∀ x ∈ front, x.2.range.start < l.pos := by simp [hfront]
  have hrest : ∀ x ∈ back, l.pos ≤ x.2.range.start := by simp [hback]
  have hqueue : (tables core).queue = front ++ back := by
    have hempty : ((tables core).queue.filter fun x =>
        l.pos ≤ x.2.range.start ∧ x.2.range.start < l.pos) = [] := by
      refine List.filter_eq_nil_iff.mpr fun x _ => ?_
      simp
    have hsplit := sorted_eq_filter (le_refl l.pos) hsorted
    rwa [hempty, List.append_nil, ← hfront, ← hback] at hsplit
  have hcompare : ∀ x : LockPtr × Pending Index Priority InProgress,
      compare l.pos x.2.range.start ≠ .gt ↔ l.pos ≤ x.2.range.start := fun x => by
    rw [ne_eq, compare_gt_iff_gt, not_lt]
  -- The waiters to visit are at the end of `front`
  have hvisits : (front.getLast?.filter fun x => l.start ≤ x.2.range.start) =
      ((tables core).waitersOf lock).head? := by
    have hsub : front.Sublist (tables core).queue := hfront ▸ List.filter_sublist
    rw [getLast?_filter_of_sorted (hsorted.sublist hsub), hfront, List.filter_filter]
    simp only [Table.waitersOf, hl, List.head?_reverse, Bool.decide_and]
  simp only [lastPendingIn, runs_bind, runs_onPendings]
  refine (hlinked.lowerBound (hwell.sorted.imp ?_)).mono ?_
  · intro a b hab hb
    rw [compare_gt_iff_gt] at hb ⊢
    exact hab.start_le.trans_lt hb
  rintro r mem ⟨rfl, rfl⟩
  simp only [setPendingTree_self]
  have hfind : ((tables core).queue.find? fun x => compare l.pos x.2.range.start ≠ .gt) =
      back.head? := by
    rw [hqueue, List.find?_append, List.find?_eq_none.mpr, Option.none_or]
    · cases hcases : back with
      | nil => rfl
      | cons x post =>
          have hx : x ∈ back := by simp [hcases]
          simp [(hcompare x).mpr (hrest x hx)]
    · intro x hx
      rw [decide_eq_true_eq, hcompare, not_le]
      exact hlast x hx
  have hfilter : ∀ r, r = front.getLast?.map Prod.fst →
      Runs (filterFrom core l.start r) ⟨store, log⟩ fun r w => w = ⟨store, log⟩ ∧
        r = ((tables core).waitersOf lock).head?.map Prod.fst := by
    rintro r rfl
    refine (filterFrom_spec h fun x hx => ?_).mono ?_
    · rw [hqueue]
      exact List.mem_append_left _ hx
    · rintro r w ⟨rfl, rfl⟩
      exact ⟨rfl, by rw [hvisits]⟩
  rw [hfind]
  cases hcases : back with
  | cons z post =>
      rw [hqueue, hcases] at hlinked
      simp only [List.head?_cons, Option.map_some, runs_bind, runs_onPendings]
      refine hlinked.predecessor.mono ?_
      rintro r mem ⟨rfl, rfl⟩
      simpa only [setPendingTree_self] using hfilter _ rfl
  | nil =>
      rw [hcases, List.append_nil] at hqueue
      simp only [List.head?_nil, Option.map_none, runs_bind, runs_getStore]
      rw [show (store.cores core).pendings = store.pendings core from rfl]
      cases hroot : store.pendings core with
      | none =>
          have hempty := hlinked.tree_eq_none.mp hroot
          simp only [runs_bind, runs_pure]
          refine hfilter none ?_
          rw [← hqueue, hempty]
          rfl
      | some root =>
          simp only [runs_bind, runs_map, runs_onPendings]
          rw [hroot]
          refine (hroot ▸ hlinked.max hroot).mono ?_
          rintro r mem ⟨hr, rfl⟩
          rw [hqueue] at hr
          have hself : store.setPendingTree core ⟨some root, store.pending⟩ = store :=
            hroot ▸ setPendingTree_self store
          simpa only [hself] using hfilter _ hr

end Waiters

end Interlock.Core
