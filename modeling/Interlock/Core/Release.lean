import Interlock.Core.Invariant

/-!
# Between operations and during a release

A `Quiet` table is one between operations.  While a lock is released the table is `Releasing`: it
still has the waiters `visits` to try.  Nobody else needs another try: a waiter that is not in
`visits` is blocked by some lock other than the one that goes away.
-/

namespace Interlock.Core

open Memory RbTree

variable {Index Priority InProgress : Type} [LinearOrder Index] [LinearOrder Priority]

/-- A list sorted by `key` splits at two bounds. -/
theorem sorted_eq_filter {α : Type} {key : α → Index} {a b : Index} (hab : a ≤ b) {xs : List α}
    (hsorted : xs.Pairwise fun x y => key x ≤ key y) :
    xs = xs.filter (fun x => key x < a) ++ xs.filter (fun x => a ≤ key x ∧ key x < b) ++
      xs.filter (fun x => b ≤ key x) := by
  induction xs with
  | nil => rfl
  | cons x xs ih =>
      obtain ⟨hx, hsorted⟩ := List.pairwise_cons.mp hsorted
      specialize ih hsorted
      have hnone : ∀ c, c ≤ key x → xs.filter (fun y => key y < c) = [] := by
        intro c hc
        refine List.filter_eq_nil_iff.mpr fun y hy => ?_
        simpa using hc.trans (hx y hy)
      rcases lt_or_ge (key x) a with hlt | hge
      · have hb : ¬ b ≤ key x := not_le.mpr (hlt.trans_le hab)
        simpa [hlt, hlt.not_ge, hb] using ih
      · rw [hnone a hge, List.nil_append] at ih
        rcases lt_or_ge (key x) b with hlt | hgeb
        · have hfirst : (x :: xs).filter (fun y => key y < a) = [] := by
            simp [hge.not_gt, hnone a hge]
          rw [hfirst]
          simpa [hge, hlt, hlt.not_ge] using ih
        · have hfirst : (x :: xs).filter (fun y => key y < a) = [] := by
            simp [hge.not_gt, hnone a hge]
          have hmid : (x :: xs).filter (fun y => a ≤ key y ∧ key y < b) = [] := by
            refine List.filter_eq_nil_iff.mpr fun y hy => ?_
            have hby : b ≤ key y := by
              rcases List.mem_cons.mp hy with rfl | hy
              · exact hgeb
              · exact hgeb.trans (hx y hy)
            simp [hby.not_gt]
          have hlast : (x :: xs).filter (fun y => b ≤ key y) = x :: xs := by
            refine List.filter_eq_self.mpr fun y hy => ?_
            rcases List.mem_cons.mp hy with rfl | hy
            · simpa using hgeb
            · simpa using hgeb.trans (hx y hy)
          rw [hfirst, hmid, hlast]
          rfl

namespace Table
variable {strict : Prop} {s : Table Index Priority InProgress} {p q r : LockPtr}
  {l lq : Lock Index} {range : Range Index} {i j : Index}
  {x y : LockPtr × Pending Index Priority InProgress}
  {visits : List (LockPtr × Pending Index Priority InProgress)}

/-! ## Blocked waiters -/

/-- `r` holds the index at which `x` waits, and conflicts with it. -/
def BlockedBy (s : Table Index Priority InProgress)
    (x : LockPtr × Pending Index Priority InProgress) (r : LockPtr) : Prop :=
  ∃ l, r ≠ x.1 ∧ s.locks r = some l ∧ conflicting x.1 r ∧ l.Holds x.2.range.start

structure Quiet (strict : Prop) (s : Table Index Priority InProgress) : Prop
    extends Sound strict s where
  settled : ∀ p l, s.locks p = some l → p ∉ s.queue.map Prod.fst → l.held = some l.stop
  blocked : strict → ∀ x ∈ s.queue, ∃ r, s.BlockedBy x r

structure Releasing (strict : Prop) (p : LockPtr)
    (visits : List (LockPtr × Pending Index Priority InProgress))
    (s : Table Index Priority InProgress) : Prop extends Sound strict s where
  not_waiting : p ∉ s.queue.map Prod.fst
  region : ∃ l, s.locks p = some l ∧
    ∀ x ∈ visits, l.start ≤ x.2.range.start ∧ x.2.range.start ≤ l.pos
  /-- The rest of the loop runs down the queue, as far as it lies in the region. -/
  rest : ∃ pre post, s.queue = pre ++ visits.reverse ++ post ∧
    ∀ x ∈ pre, ∀ l, s.locks p = some l → x.2.range.start < l.start
  settled : ∀ q l, q ≠ p → s.locks q = some l → q ∉ s.queue.map Prod.fst → l.held = some l.stop
  blocked : strict → ∀ x ∈ s.queue, x ∉ visits → ∃ r, r ≠ p ∧ s.BlockedBy x r

/-- Between operations, whatever the searches have found: a lock that holds nothing waits. -/
structure Idle (s : Table Index Priority InProgress) : Prop extends WellLinked s where
  settled : ∀ p l, s.locks p = some l → p ∉ s.queue.map Prod.fst → l.held ≠ none

/-- The release of `p`, whatever the searches have found. -/
structure Releases (p : LockPtr) (visits : List (LockPtr × Pending Index Priority InProgress))
    (s : Table Index Priority InProgress) : Prop extends WellLinked s where
  not_waiting : p ∉ s.queue.map Prod.fst
  region : ∃ l, s.locks p = some l ∧
    ∀ x ∈ visits, l.start ≤ x.2.range.start ∧ x.2.range.start ≤ l.pos
  rest : ∃ pre post, s.queue = pre ++ visits.reverse ++ post ∧
    ∀ x ∈ pre, ∀ l, s.locks p = some l → x.2.range.start < l.start
  settled : ∀ q l, q ≠ p → s.locks q = some l → q ∉ s.queue.map Prod.fst → l.held ≠ none

theorem Quiet.idle (h : s.Quiet strict) : s.Idle := by
  refine ⟨h.wellLinked, fun p l hl hp => ?_⟩
  rw [h.settled p l hl hp]
  exact Option.some_ne_none _

theorem Releasing.releases (h : s.Releasing strict p visits) : s.Releases p visits := by
  refine ⟨h.wellLinked, h.not_waiting, h.region, h.rest, fun q l hqp hl hq => ?_⟩
  rw [h.settled q l hqp hl hq]
  exact Option.some_ne_none _

/-- A waiter that is blocked makes no progress. -/
theorem Sound.resume_blocked (h : s.Sound strict) (hstrict : strict) (hx : x ∈ s.queue)
    (hr : s.BlockedBy x r) :
    s.firstConflict x.1 x.2.range = some x.2.range.start ∧ s.resume x = s := by
  obtain ⟨lr, -, hlr, hconf, hholds⟩ := hr
  obtain ⟨l, hl, hrange, hwf, hlt⟩ := h.exists_lock hx
  have hstop : x.2.range.start < x.2.range.stop := by
    rw [hrange]
    exact hlt (hwf.nonempty (Or.inl hstrict))
  obtain ⟨j, hj, hconflict⟩ := Lock.conflict_of_holds hholds le_rfl hstop
  obtain rfl := le_antisymm hj (Lock.le_of_conflict hconflict)
  have hfirst : s.firstConflict x.1 x.2.range = some x.2.range.start := by
    refine (h.firstConflict_isFirst x.1 x.2.range).unique ⟨⟨r, lr, hlr, hconf, hconflict⟩, ?_⟩
    rintro k ⟨q, lq, -, -, hk⟩
    exact Lock.le_of_conflict hk
  refine ⟨hfirst, ?_⟩
  unfold Table.resume Table.resumeAt
  rw [hfirst]
  exact if_pos rfl

theorem empty_quiet : (empty : Table Index Priority InProgress).Quiet strict where
  toSound := empty_sound
  settled := by simp [empty]
  blocked := by simp [empty]

/-! ## Locking -/

omit [LinearOrder Priority] in
theorem BlockedBy.add {held : Option Index} (h : s.BlockedBy x r) (hp : s.locks p = none) :
    (s.add p range held).BlockedBy x r := by
  obtain ⟨l, hne, hl, hrest⟩ := h
  have hrp : r ≠ p := fun heq => by simp [heq, hp] at hl
  exact ⟨l, hne, by rwa [add_locks, if_neg hrp], hrest⟩

theorem Quiet.add_complete (h : s.Quiet strict) (hp : s.locks p = none)
    (hrange : Admissible strict p range) (hnone : s.firstConflict p range = none) :
    (s.add p range (some range.stop)).Quiet strict where
  toSound := h.toSound.add_complete hp hrange hnone
  settled q lq hlq hq := by
    rw [add_locks] at hlq
    split at hlq
    · rw [← Option.some.inj hlq]
    · exact h.settled q lq hlq hq
  blocked hstrict x hx := by
    obtain ⟨r, hr⟩ := h.blocked hstrict x hx
    exact ⟨r, hr.add hp⟩

theorem Quiet.tryLock (h : s.Quiet strict) (hp : s.locks p = none)
    (hrange : Admissible strict p range) : (s.tryLock p range).Quiet strict := by
  unfold Table.tryLock
  split
  · exact h
  · next hnone => exact h.add_complete hp hrange hnone

theorem Quiet.lock (h : s.Quiet strict) (hp : s.locks p = none)
    (hkind : p.kind = .read ∨ p.kind = .write) (hrange : Admissible strict p range)
    (priority : Priority) (inProgress : InProgress) :
    (s.lock p range priority inProgress).Quiet strict := by
  have hsound := h.toSound.lock hp hkind hrange priority inProgress
  unfold Table.lock Table.lockAt at hsound ⊢
  split
  · next i hi =>
      simp only [hi] at hsound
      refine ⟨hsound, ?_, ?_⟩
      · intro q lq hlq hq
        simp only [enqueue, (insertSeq_perm.map Prod.fst).mem_iff, List.map_cons, List.mem_cons,
          not_or] at hq
        rw [enqueue_locks, add_locks, if_neg hq.1] at hlq
        exact h.settled q lq hlq hq.2
      · intro hstrict y hy
        rcases List.mem_cons.mp (insertSeq_perm.mem_iff.mp hy) with rfl | hy
        · -- The new waiter stands where its first conflict is
          obtain ⟨q, lq, hlq, hconf, hholds⟩ := h.holder_of_firstConflict hstrict hi
          have hqp : q ≠ p := fun heq => by simp [heq, hp] at hlq
          exact ⟨q, lq, hqp, by rwa [enqueue_locks, add_locks, if_neg hqp], hconf, hholds⟩
        · obtain ⟨r, hr⟩ := h.blocked hstrict y hy
          exact ⟨r, hr.add hp⟩
  · next hnone => exact h.add_complete hp hrange hnone

theorem Quiet.write (h : s.Quiet strict) (p : LockPtr) (f : InProgress → InProgress) :
    (s.write p f).Quiet strict where
  toSound := h.toSound.write p f
  settled q lq hlq hq := by
    refine h.settled q lq hlq fun hmem => hq ?_
    simpa [Table.write, Function.comp_def] using hmem
  blocked hstrict y hy := by
    obtain ⟨x, hx, rfl⟩ := List.mem_map.mp hy
    obtain ⟨r, l, hne, hl, hconf, hholds⟩ := h.blocked hstrict x hx
    exact ⟨r, l, by simpa using hne, hl, by simpa using hconf, by simpa using hholds⟩

/-! ## Operations with any answers -/

theorem empty_idle : (empty : Table Index Priority InProgress).Idle :=
  ⟨empty_wellLinked, fun p l hl => by cases hl⟩

theorem Idle.add (h : s.Idle) (hp : s.locks p = none) (range : Range Index) (e : Index) :
    (s.add p range (some e)).Idle := by
  refine ⟨h.toWellLinked.add hp range _, fun q lq hlq hq => ?_⟩
  rw [add_locks] at hlq
  split at hlq
  · rw [← Option.some.inj hlq]
    exact Option.some_ne_none _
  · exact h.settled q lq hlq hq

theorem Idle.lockAt (h : s.Idle) (hp : s.locks p = none)
    (hkind : p.kind = .read ∨ p.kind = .write) (range : Range Index) (priority : Priority)
    (inProgress : InProgress) (conflict : Option Index) :
    (s.lockAt p range priority inProgress conflict).Idle := by
  cases conflict with
  | none => exact h.add hp range range.stop
  | some i =>
      refine ⟨h.toWellLinked.lockAt hp hkind range priority inProgress (some i),
        fun q lq hlq hq => ?_⟩
      have hqueue : ∀ q, q ∉ (s.lockAt p range priority inProgress (some i)).queue.map Prod.fst →
          q ≠ p ∧ q ∉ s.queue.map Prod.fst := by
        intro q hq
        have hperm : ((s.lockAt p range priority inProgress (some i)).queue.map Prod.fst).Perm
            (p :: s.queue.map Prod.fst) := insertSeq_perm.map Prod.fst
        rwa [hperm.mem_iff, List.mem_cons, not_or] at hq
      obtain ⟨hqp, hq⟩ := hqueue q hq
      have hlocks : (s.lockAt p range priority inProgress (some i)).locks q = s.locks q :=
        (add_locks _ _ _ _ _).trans (if_neg hqp)
      exact h.settled q lq (hlocks ▸ hlq) hq

theorem Idle.write (h : s.Idle) (p : LockPtr) (f : InProgress → InProgress) :
    (s.write p f).Idle := by
  refine ⟨h.toWellLinked.write p f, fun q lq hlq hq => h.settled q lq hlq fun hmem => hq ?_⟩
  obtain ⟨x, hx, rfl⟩ := List.mem_map.mp hmem
  exact List.mem_map.mpr ⟨_, List.mem_map_of_mem hx, writeEntry_fst _ _ _⟩

/-! ## Unlocking -/

omit [LinearOrder Priority] in
theorem truncate_locks (hl : s.locks p = some l) : (s.truncate p i).locks q =
    if q = p then some { l with held := l.held.bind fun _ => if i = l.start then none else some i }
    else s.locks q := by
  simp only [truncate, hl]
  exact setHeld_locks _ _ _ _ hl

omit [LinearOrder Priority] in
@[simp] theorem truncate_live : (s.truncate p i).live = s.live := by
  unfold truncate
  split <;> rfl

omit [LinearOrder Priority] in
@[simp] theorem truncate_queue : (s.truncate p i).queue = s.queue := by
  unfold truncate
  split <;> rfl

omit [LinearOrder Priority] in
/-- What `p` holds after a truncation ends at `i`. -/
theorem truncate_pos_le (hl : s.locks p = some l) (hstart : l.start ≤ i) :
    ∃ l', (s.truncate p i).locks p = some l' ∧ l'.start = l.start ∧ l'.stop = l.stop ∧
      l'.pos ≤ i := by
  refine ⟨_, (truncate_locks hl).trans (if_pos rfl), rfl, rfl, ?_⟩
  cases l.held with
  | none => exact hstart
  | some e =>
      simp only [Lock.pos, Option.bind_some]
      split
      · exact hstart
      · exact le_rfl

omit [LinearOrder Priority] in
/-- As far as its region reaches, a truncation sets its end. -/
theorem truncate_pos (hl : s.locks p = some l) (hstart : l.start ≤ i) (hpos : i ≤ l.pos) :
    ∃ l', (s.truncate p i).locks p = some l' ∧ l'.start = l.start ∧ l'.stop = l.stop ∧
      l'.pos = i := by
  refine ⟨_, (truncate_locks hl).trans (if_pos rfl), rfl, rfl, ?_⟩
  cases hheld : l.held with
  | none =>
      simp only [Lock.pos, hheld, Option.getD_none] at hpos
      exact le_antisymm hstart hpos
  | some e =>
      simp only [Lock.pos, Option.bind_some]
      split
      · next heq => exact heq.symm
      · rfl

omit [LinearOrder Priority] in
theorem BlockedBy.truncate (h : s.BlockedBy x r) (hl : s.locks p = some l) (hr : r ≠ p) :
    (s.truncate p i).BlockedBy x r := by
  obtain ⟨lr, hne, hlr, hrest⟩ := h
  exact ⟨lr, hne, by rwa [truncate_locks hl, if_neg hr], hrest⟩

theorem BlockedBy.resume (h : s.BlockedBy y r) (hs : s.Sound strict) (hx : x ∈ s.queue) :
    (s.resume x).BlockedBy y r := by
  obtain ⟨lr, hne, hlr, hconf, hholds⟩ := h
  obtain ⟨l', hl', hstart, -, hpos⟩ := hs.resume_grows hx hlr
  exact ⟨l', hne, hl', hconf, hstart ▸ hholds.1, hholds.2.trans_le hpos⟩

theorem insertSeq_append {seq₁ seq₂ : List (LockPtr × Pending Index Priority InProgress)}
    (hfirst : ∀ y ∈ seq₁, y.2.range.start < x.2.range.start) :
    insertSeq pendingNodeCallback x (seq₁ ++ seq₂) =
      seq₁ ++ insertSeq pendingNodeCallback x seq₂ := by
  have hright : ∀ y ∈ seq₁, goesRight pendingNodeCallback x.2 y.2 = true := fun y hy =>
    goesRight_pending.mpr (Or.inl (hfirst y hy))
  rw [insertSeq, insertSeq, List.takeWhile_append_of_pos hright,
    List.dropWhile_append_of_pos hright, List.append_assoc]

/-- The waiters in the region of `p` are neighbours in the queue. -/
theorem WellLinked.waitersOf_split (h : s.WellLinked) (hl : s.locks p = some l) :
    ∃ pre post, s.queue = pre ++ (s.waitersOf p).reverse ++ post ∧
      (∀ x ∈ pre, x.2.range.start < l.start) ∧ ∀ x ∈ post, l.pos ≤ x.2.range.start := by
  have hsorted : s.queue.Pairwise fun x y => x.2.range.start ≤ y.2.range.start :=
    h.sorted.imp pendingLe.start_le
  refine ⟨s.queue.filter fun x => x.2.range.start < l.start,
    s.queue.filter fun x => max l.start l.pos ≤ x.2.range.start, ?_, ?_, ?_⟩
  · have hregion : ∀ x : LockPtr × Pending Index Priority InProgress,
        l.start ≤ x.2.range.start ∧ x.2.range.start < max l.start l.pos ↔
          l.start ≤ x.2.range.start ∧ x.2.range.start < l.pos := fun x =>
      and_congr_right fun hle => by rw [lt_max_iff, or_iff_right (not_lt.mpr hle)]
    have hsplit := sorted_eq_filter (le_max_left l.start l.pos) hsorted
    simp only [hregion] at hsplit
    simp only [waitersOf, hl, List.reverse_reverse]
    exact hsplit
  · intro x hx
    simpa using (List.mem_filter.mp hx).2
  · intro x hx
    have hle : max l.start l.pos ≤ x.2.range.start := by simpa using (List.mem_filter.mp hx).2
    exact (le_max_right _ _).trans hle

omit [LinearOrder Priority] in
theorem mem_waitersOf (hl : s.locks p = some l) :
    x ∈ s.waitersOf p ↔ x ∈ s.queue ∧ l.start ≤ x.2.range.start ∧ x.2.range.start < l.pos := by
  simp [waitersOf, hl]

/-- The release begins with all waiters in the region. -/
theorem Quiet.releasing (h : s.Quiet strict) (hl : s.locks p = some l) :
    (s.dequeue p).Releasing strict p ((s.dequeue p).waitersOf p) := by
  have hldeq : (s.dequeue p).locks p = some l := hl
  have hsound := h.toSound.dequeue p
  refine ⟨hsound, not_mem_dequeue s p, ⟨l, hl, fun x hx => ?_⟩, ?_, ?_, ?_⟩
  · obtain ⟨-, hstart, hpos⟩ := (mem_waitersOf hldeq).mp hx
    exact ⟨hstart, hpos.le⟩
  · obtain ⟨pre, post, hqueue, hpre, -⟩ := hsound.wellLinked.waitersOf_split hldeq
    refine ⟨pre, post, hqueue, fun x hx l' hl' => ?_⟩
    obtain rfl := Option.some.inj (hldeq.symm.trans hl')
    exact hpre x hx
  · intro q lq hne hlq hq
    refine h.settled q lq hlq fun hmem => hq ?_
    obtain ⟨x, hx, rfl⟩ := List.mem_map.mp hmem
    exact List.mem_map_of_mem (List.mem_filter.mpr ⟨hx, by simpa using hne⟩)
  · intro hstrict x hx hnot
    obtain ⟨r, lr, hne, hlr, hconf, hholds⟩ := h.blocked hstrict x (List.mem_filter.mp hx).1
    refine ⟨r, ?_, lr, hne, hlr, hconf, hholds⟩
    rintro rfl
    obtain rfl := Option.some.inj (hl.symm.trans hlr)
    exact hnot ((mem_waitersOf hldeq).mpr ⟨hx, hholds⟩)

/-- A release with any answers of the searches begins with the same waiters. -/
theorem Idle.releases (h : s.Idle) (hl : s.locks p = some l) :
    (s.dequeue p).Releases p ((s.dequeue p).waitersOf p) := by
  have hldeq : (s.dequeue p).locks p = some l := hl
  have hlinked := h.toWellLinked.dequeue p
  refine ⟨hlinked, not_mem_dequeue s p, ⟨l, hl, fun x hx => ?_⟩, ?_, fun q lq hne hlq hq => ?_⟩
  · obtain ⟨-, hstart, hpos⟩ := (mem_waitersOf hldeq).mp hx
    exact ⟨hstart, hpos.le⟩
  · obtain ⟨pre, post, hqueue, hpre, -⟩ := hlinked.waitersOf_split hldeq
    refine ⟨pre, post, hqueue, fun x hx l' hl' => ?_⟩
    obtain rfl := Option.some.inj (hldeq.symm.trans hl')
    exact hpre x hx
  · refine h.settled q lq hlq fun hmem => hq ?_
    exact mem_removeSeq.mpr ⟨hne, hmem⟩

theorem Releasing.mem_queue (h : s.Releasing strict p (x :: visits)) : x ∈ s.queue := by
  obtain ⟨pre, post, hqueue, -⟩ := h.rest
  simp [hqueue]

/-- The table when the next waiter is resumed. -/
theorem Releasing.truncate (h : s.Releasing strict p (x :: visits)) :
    (s.truncate p x.2.range.start).Sound strict := by
  obtain ⟨l, hl, hregion⟩ := h.region
  obtain ⟨hstart, hpos⟩ := hregion x (by simp)
  exact h.toSound.truncate hl h.not_waiting hstart hpos

/-- What a call of `resume_borrow` can do to the queue. -/
theorem resumeAt_cases (s : Table Index Priority InProgress)
    (x : LockPtr × Pending Index Priority InProgress) (conflict : Option Index) :
    (conflict = some x.2.range.start ∧ s.resumeAt x conflict = s) ∨
    (∃ i, conflict = some i ∧ i ≠ x.2.range.start ∧
      s.resumeAt x conflict = ((s.dequeue x.1).setHeld x.1 (some i)).enqueue (moveTo x i)) ∨
    (conflict = none ∧
      s.resumeAt x conflict = (s.dequeue x.1).setHeld x.1 (some x.2.range.stop)) := by
  cases conflict with
  | none => exact Or.inr (Or.inr ⟨rfl, rfl⟩)
  | some i =>
      by_cases hi : i = x.2.range.start
      · exact Or.inl ⟨congrArg some hi, if_pos hi⟩
      · exact Or.inr (Or.inl ⟨i, rfl, hi, if_neg hi⟩)

/-- One round, whatever the searches find.  The waiter stays where it is, or moves behind the
waiters to come. -/
theorem Releases.visitAt (h : s.Releases p (x :: visits)) {conflict : Option Index}
    (hconflict : ∀ i, conflict = some i → x.2.range.start ≤ i) :
    (s.visitAt p x conflict).Releases p visits := by
  obtain ⟨hlinked, hnotwaiting, ⟨l, hl, hregion⟩, ⟨pre, post, hqueue, hpre⟩, hsettled⟩ := h
  obtain ⟨hxstart, hxpos⟩ := hregion x (by simp)
  have hxq : x ∈ s.queue := by simp [hqueue]
  have hxp : x.1 ≠ p := fun heq => hnotwaiting (heq ▸ List.mem_map_of_mem hxq)
  have hqueue' : s.queue = pre ++ visits.reverse ++ x :: post := by simp [hqueue]
  obtain ⟨l₁, hl₁, hstart₁, -, hpos₁⟩ := truncate_pos hl hxstart hxpos
  set s₁ := s.truncate p x.2.range.start with hs₁
  have hqueue₁ : s₁.queue = pre ++ visits.reverse ++ x :: post := by
    rw [hs₁, truncate_queue, hqueue']
  have hlinked₁ : s₁.WellLinked := hlinked.truncate hnotwaiting _
  have hl₂ : (s₁.resumeAt x conflict).locks p = some l₁ := by
    rw [resumeAt_locks_of_ne (Ne.symm hxp), hl₁]
  -- The waiters to come stand at the same index or in front of it
  have hvisits : ∀ y ∈ pre ++ visits.reverse, y.2.range.start ≤ x.2.range.start := by
    intro y hy
    have hsorted := hlinked.sorted
    rw [hqueue', List.pairwise_append] at hsorted
    exact (hsorted.2.2 y hy x (by simp)).start_le
  have hremoved : removeSeq x.1 s₁.queue = pre ++ visits.reverse ++ post := by
    rw [hqueue₁]
    exact removeSeq_eq (hqueue₁ ▸ hlinked₁.queue_nodup)
  have hsettled₂ : ∀ q lq, q ≠ p → q ≠ x.1 → (s₁.resumeAt x conflict).locks q = some lq →
      q ∉ (removeSeq x.1 s₁.queue).map Prod.fst → lq.held ≠ none := by
    intro q lq hqp hqx hlq hq
    rw [resumeAt_locks_of_ne hqx, hs₁, truncate_locks hl, if_neg hqp] at hlq
    refine hsettled q lq hqp hlq fun hmem => hq (mem_removeSeq.mpr ⟨hqx, ?_⟩)
    rwa [hs₁, truncate_queue]
  -- The queue after the round
  have hround : (∃ post', (s₁.resumeAt x conflict).queue = pre ++ visits.reverse ++ post' ∧
      (∀ q, q ∈ post'.map Prod.fst → q = x.1 ∨ q ∈ post.map Prod.fst) ∧
      ∀ q, q ∈ post.map Prod.fst → q ∈ post'.map Prod.fst) ∧
      ((∃ lx, (s₁.resumeAt x conflict).locks x.1 = some lx ∧ lx.held ≠ none) ∨
        x.1 ∈ (s₁.resumeAt x conflict).queue.map Prod.fst) := by
    rcases s₁.resumeAt_cases x conflict with ⟨-, heq⟩ | ⟨i, rfl, hi, heq⟩ | ⟨-, heq⟩
    · rw [heq]
      refine ⟨⟨x :: post, hqueue₁, fun q hq => ?_, fun q hq => ?_⟩, Or.inr (by simp [hqueue₁])⟩
      · simpa using hq
      · exact List.mem_cons_of_mem _ hq
    · have hlt : x.2.range.start < i := lt_of_le_of_ne (hconflict i rfl) (Ne.symm hi)
      have hqueue₂ : (s₁.resumeAt x (some i)).queue =
          pre ++ visits.reverse ++ insertSeq pendingNodeCallback (moveTo x i) post := by
        rw [heq]
        simp only [enqueue, setHeld_queue, dequeue, hremoved]
        exact insertSeq_append fun y hy => (hvisits y hy).trans_lt hlt
      have hmem : ∀ q, q ∈ (insertSeq pendingNodeCallback (moveTo x i) post).map Prod.fst ↔
          q = x.1 ∨ q ∈ post.map Prod.fst := by
        intro q
        rw [(insertSeq_perm.map Prod.fst).mem_iff, List.map_cons, List.mem_cons]
        rfl
      refine ⟨⟨_, hqueue₂, fun q hq => (hmem q).mp hq, fun q hq => (hmem q).mpr (Or.inr hq)⟩,
        Or.inr ?_⟩
      rw [hqueue₂, List.map_append, List.mem_append]
      exact Or.inr ((hmem x.1).mpr (Or.inl rfl))
    · rw [heq]
      obtain ⟨lx, hlx, -⟩ := (hlinked₁.queued x (by simp [hqueue₁])).2.2
      have hldeq : (s₁.dequeue x.1).locks x.1 = some lx := hlx
      refine ⟨⟨post, hremoved, fun q hq => Or.inr hq, fun q hq => hq⟩,
        Or.inl ⟨{ lx with held := some x.2.range.stop }, ?_, Option.some_ne_none _⟩⟩
      exact (setHeld_locks _ _ _ _ hldeq).trans (if_pos rfl)
  obtain ⟨⟨post', hqueue₂, hnew, hold⟩, hself⟩ := hround
  show (s₁.resumeAt x conflict).Releases p visits
  refine ⟨hlinked₁.resumeAt (by simp [hqueue₁]) conflict, ?_, ⟨l₁, hl₂, fun y hy => ?_⟩,
    ⟨pre, post', hqueue₂, fun y hy l' hl' => ?_⟩, fun q lq hqp hlq hq => ?_⟩
  · intro hmem
    refine hnotwaiting ?_
    rw [hqueue₂, List.map_append, List.mem_append] at hmem
    rw [hqueue', List.map_append, List.mem_append]
    rcases hmem with hmem | hmem
    · exact Or.inl hmem
    · rcases hnew p hmem with heq | hmem
      · exact absurd heq.symm hxp
      · exact Or.inr (List.mem_cons_of_mem _ hmem)
  · rw [hpos₁]
    exact ⟨hstart₁ ▸ (hregion y (List.mem_cons_of_mem _ hy)).1, hvisits y (by simp [hy])⟩
  · obtain rfl := Option.some.inj (hl₂.symm.trans hl')
    rw [hstart₁]
    exact hpre y hy l hl
  · by_cases hqx : q = x.1
    · rw [hqx] at hlq hq
      rcases hself with ⟨lx, hlx, hheld⟩ | hmem
      · rwa [← Option.some.inj (hlx.symm.trans hlq)]
      · exact absurd hmem hq
    · refine hsettled₂ q lq hqp hqx hlq fun hmem => hq ?_
      rw [hremoved, List.map_append, List.mem_append] at hmem
      rw [hqueue₂, List.map_append, List.mem_append]
      exact hmem.imp_right (hold q)

/-- One round: the region shrinks to the position of the next waiter, which is then resumed. -/
theorem Releasing.visit (h : s.Releasing strict p (x :: visits)) :
    (Table.visit p s x).Releasing strict p visits := by
  have hreleases := h.releases
  obtain ⟨hsound, hnotwaiting, ⟨l, hl, hregion⟩, ⟨pre, post, hqueue, hpre⟩, hsettled, hblocked⟩ := h
  obtain ⟨hxstart, hxpos⟩ := hregion x (by simp)
  have hxq : x ∈ s.queue := by simp [hqueue]
  have hxp : x.1 ≠ p := fun heq => hnotwaiting (heq ▸ List.mem_map_of_mem hxq)
  obtain ⟨l₁, hl₁, hstart₁, -, hpos₁⟩ := truncate_pos hl hxstart hxpos
  obtain ⟨lx, hlx, hrange, hwfx, -⟩ := hsound.exists_lock hxq
  have hlx₁ : (s.truncate p x.2.range.start).locks x.1 = some lx := by
    rw [truncate_locks hl, if_neg hxp, hlx]
  set s₁ := s.truncate p x.2.range.start with hs₁
  have hsound₁ : s₁.Sound strict := hsound.truncate hl hnotwaiting hxstart hxpos
  have hxq₁ : x ∈ s₁.queue := by rwa [hs₁, truncate_queue]
  have hsound₂ : (s₁.resume x).Sound strict := hsound₁.resume hxq₁
  have hrangestart : lx.pos = x.2.range.start := by rw [hrange]
  obtain ⟨-, hnotwaiting₂, hregion₂, hrest₂, -⟩ := hreleases.visitAt
    fun i (hi : s₁.firstConflict x.1 x.2.range = some i) => (hsound₁.le_firstConflict hi).1
  -- Whoever was blocked by another lock still is
  have hkeep : ∀ y ∈ s.queue, y ∉ x :: visits → strict →
      ∃ r, r ≠ p ∧ (s₁.resume x).BlockedBy y r := by
    intro y hy hnot hstrict
    obtain ⟨r, hrp, hr⟩ := hblocked hstrict y hy hnot
    exact ⟨r, hrp, (hr.truncate hl hrp).resume hsound₁ hxq₁⟩
  -- A conflict that stops `x` is neither with `p` nor with what `x` holds itself
  have hstop : ∀ i, s₁.firstConflict x.1 ⟨lx.pos, lx.stop⟩ = some i → strict →
      ∃ r, r ≠ p ∧ r ≠ x.1 ∧ ∃ lr, s₁.locks r = some lr ∧ conflicting x.1 r ∧ lr.Holds i := by
    intro i hi hstrict
    obtain ⟨r, lr, hlr, hconf, hholds⟩ := hsound₁.holder_of_firstConflict hstrict hi
    obtain ⟨hle, -⟩ := hsound₁.le_firstConflict hi
    refine ⟨r, ?_, ?_, lr, hlr, hconf, hholds⟩
    · rintro rfl
      obtain rfl := Option.some.inj (hl₁.symm.trans hlr)
      exact absurd (hholds.2.trans_eq hpos₁) (not_lt.mpr (hrangestart ▸ hle))
    · rintro rfl
      obtain rfl := Option.some.inj (hlx₁.symm.trans hlr)
      exact absurd hholds.2 (not_lt.mpr hle)
  have hsettled₂ : ∀ q lq, q ≠ p → q ≠ x.1 → (s₁.resume x).locks q = some lq →
      q ∉ s.queue.map Prod.fst → lq.held = some lq.stop := by
    intro q lq hqp hqx hlq hq
    rw [resume_locks_of_ne hqx, hs₁, truncate_locks hl, if_neg hqp] at hlq
    exact hsettled q lq hqp hlq hq
  have hmem_removed : ∀ y ∈ removeSeq x.1 s₁.queue, y ∈ s.queue ∧ y.1 ≠ x.1 := by
    intro y hy
    obtain ⟨hy, hne⟩ := List.mem_filter.mp hy
    exact ⟨by rwa [hs₁, truncate_queue] at hy, by simpa using hne⟩
  have hnot_removed : ∀ q, q ≠ x.1 → q ∉ (removeSeq x.1 s₁.queue).map Prod.fst →
      q ∉ s.queue.map Prod.fst := by
    intro q hqx hq hmem
    refine hq (mem_removeSeq.mpr ⟨hqx, ?_⟩)
    rwa [hs₁, truncate_queue]
  obtain ⟨hsettled₃, hblocked₃⟩ : (∀ q lq, q ≠ p → (s₁.resume x).locks q = some lq →
      q ∉ (s₁.resume x).queue.map Prod.fst → lq.held = some lq.stop) ∧
      (strict → ∀ y ∈ (s₁.resume x).queue, y ∉ visits →
        ∃ r, r ≠ p ∧ (s₁.resume x).BlockedBy y r) := by
    rcases hsound₁.resume_cases hxq₁ hlx₁ with ⟨hfirst, heq⟩ | ⟨i, hfirst, hlt, -, heq⟩ | ⟨-, heq⟩
    · -- No progress: `x` stays where it is
      refine ⟨?_, ?_⟩
      · intro q lq hqp hlq hq
        rw [heq, hs₁, truncate_queue] at hq
        refine hsettled₂ q lq hqp (fun hqx => hq ?_) hlq hq
        rw [hqx]
        exact List.mem_map_of_mem hxq
      · intro hstrict y hy hnot
        rw [heq, hs₁, truncate_queue] at hy
        by_cases hyx : y = x
        · obtain ⟨r, hrp, hrx, lr, hlr, hconf, hholds⟩ := hstop _ hfirst hstrict
          rw [hyx, heq]
          exact ⟨r, hrp, lr, hrx, hlr, hconf, hrangestart ▸ hholds⟩
        · exact hkeep y hy (by simp [hyx, hnot]) hstrict
    · -- `x` moves to `i`
      have hmem : ∀ y, y ∈ (s₁.resume x).queue ↔ y = moveTo x i ∨ y ∈ removeSeq x.1 s₁.queue := by
        intro y
        rw [heq]
        exact insertSeq_perm.mem_iff.trans List.mem_cons
      refine ⟨?_, ?_⟩
      · intro q lq hqp hlq hq
        have hqx : q ≠ x.1 := by
          rintro rfl
          exact hq (List.mem_map.mpr ⟨moveTo x i, (hmem _).mpr (Or.inl rfl), rfl⟩)
        refine hsettled₂ q lq hqp hqx hlq (hnot_removed q hqx fun hq' => hq ?_)
        obtain ⟨y, hy, rfl⟩ := List.mem_map.mp hq'
        exact List.mem_map_of_mem ((hmem y).mpr (Or.inr hy))
      · intro hstrict y hy hnot
        rcases (hmem y).mp hy with rfl | hy
        · obtain ⟨r, hrp, hrx, lr, hlr, hconf, hholds⟩ := hstop i hfirst hstrict
          exact ⟨r, hrp, lr, hrx, by rw [resume_locks_of_ne hrx, hlr], hconf, hholds⟩
        · obtain ⟨hy, hyx⟩ := hmem_removed y hy
          refine hkeep y hy ?_ hstrict
          simp only [List.mem_cons, not_or]
          exact ⟨fun h => hyx (h ▸ rfl), hnot⟩
    · -- `x` is complete
      have hqueue₂ : (s₁.resume x).queue = removeSeq x.1 s₁.queue := by
        rw [heq]
        rfl
      refine ⟨?_, ?_⟩
      · intro q lq hqp hlq hq
        rw [hqueue₂] at hq
        by_cases hqx : q = x.1
        · subst hqx
          have hldeq : (s₁.dequeue x.1).locks x.1 = some lx := hlx₁
          rw [heq, setHeld_locks _ _ _ _ hldeq, if_pos rfl] at hlq
          rw [← Option.some.inj hlq]
        · exact hsettled₂ q lq hqp hqx hlq (hnot_removed q hqx hq)
      · intro hstrict y hy hnot
        rw [hqueue₂] at hy
        obtain ⟨hy, hyx⟩ := hmem_removed y hy
        refine hkeep y hy ?_ hstrict
        simp only [List.mem_cons, not_or]
        exact ⟨fun h => hyx (h ▸ rfl), hnot⟩
  exact ⟨hsound₂, hnotwaiting₂, hregion₂, hrest₂, hsettled₃, hblocked₃⟩

theorem Releasing.foldl (h : s.Releasing strict p visits) :
    (visits.foldl (Table.visit p) s).Releasing strict p [] := by
  induction visits generalizing s with
  | nil => exact h
  | cons x visits ih => exact ih h.visit

theorem Releases.forget (h : s.Releases p []) : (s.forget p).Idle where
  toWellLinked := h.toWellLinked.forget h.not_waiting
  settled q lq hlq hq := by
    rw [forget_locks] at hlq
    split at hlq
    · cases hlq
    · next hqp => exact h.settled q lq hqp hlq hq

/-- The release ends when no waiter is left to try. -/
theorem Releasing.forget (h : s.Releasing strict p []) : (s.forget p).Quiet strict where
  toSound := h.toSound.forget h.not_waiting
  settled q lq hlq hq := by
    rw [forget_locks] at hlq
    split at hlq
    · cases hlq
    · next hqp => exact h.settled q lq hqp hlq hq
  blocked hstrict x hx := by
    obtain ⟨r, hrp, lr, hne, hlr, hrest⟩ := h.blocked hstrict x hx List.not_mem_nil
    exact ⟨r, lr, hne, by rwa [forget_locks, if_neg hrp], hrest⟩

theorem Sound.waiting_lock (h : s.Sound strict) (hp : s.locks p = none)
    (hkind : p.kind = .read ∨ p.kind = .write) (hrange : Admissible strict p range)
    (priority : Priority) (inProgress : InProgress) :
    (s.lock p range priority inProgress).waiting p =
      (s.firstConflict p range).map fun _ => inProgress := by
  have hlock := h.lock hp hkind hrange priority inProgress
  cases hfirst : s.firstConflict p range with
  | none =>
      rw [lock_of_none hfirst]
      exact waiting_eq_none (h.not_queued hp)
  | some i =>
      have hmem : (p, ⟨⟨i, range.stop⟩, priority, p, inProgress⟩) ∈
          (s.lock p range priority inProgress).queue := by
        rw [lock_of_some hfirst]
        exact insertSeq_perm.mem_iff.mpr List.mem_cons_self
      exact hlock.waiting_eq_some hmem

/-! ## Undoing a lock operation -/

/-- Nothing but the lock `p` is different. -/
structure SameOff (s s' : Table Index Priority InProgress) (p : LockPtr) : Prop where
  locks : ∀ q, q ≠ p → s'.locks q = s.locks q
  live : s'.live = s.live
  queue : s'.queue = s.queue

omit [LinearOrder Priority] in
theorem BlockedBy.sameOff {s' : Table Index Priority InProgress} (h : s.BlockedBy x r)
    (hsame : s.SameOff s' p) (hr : r ≠ p) : s'.BlockedBy x r := by
  obtain ⟨lr, hne, hlr, hrest⟩ := h
  exact ⟨lr, hne, by rwa [hsame.locks r hr], hrest⟩

/-- A round in which the waiter is blocked by a third lock. -/
theorem SameOff.visit {s' : Table Index Priority InProgress} (h : s.SameOff s' p)
    (hrel : s'.Releasing strict p (x :: visits)) (hstrict : strict) (hr : s.BlockedBy x r)
    (hrp : r ≠ p) :
    (s'.truncate p x.2.range.start).firstConflict x.1 x.2.range = some x.2.range.start ∧
      s.SameOff (s'.visit p x) p := by
  obtain ⟨l, hl, -⟩ := hrel.region
  have hmem : x ∈ (s'.truncate p x.2.range.start).queue := by
    rw [truncate_queue]
    exact hrel.mem_queue
  obtain ⟨hfirst, hself⟩ := hrel.truncate.resume_blocked hstrict hmem
    ((hr.sameOff h hrp).truncate hl hrp)
  refine ⟨hfirst, ?_⟩
  rw [Table.visit_eq, hself]
  refine ⟨fun q hq => ?_, ?_, ?_⟩
  · rw [truncate_locks hl, if_neg hq, h.locks q hq]
  · rw [truncate_live, h.live]
  · rw [truncate_queue, h.queue]

theorem SameOff.forget {s' : Table Index Priority InProgress} {held : Option Index}
    (h : (s.add p range held).SameOff s' p) (hs : s.Sound strict) (hp : s.locks p = none) :
    s'.forget p = s := by
  have hlocks : (s'.forget p).locks = s.locks := by
    funext q
    rw [forget_locks]
    by_cases hqp : q = p
    · rw [if_pos hqp, hqp, hp]
    · rw [if_neg hqp, h.locks q hqp, add_locks, if_neg hqp]
  have hlive : (s'.forget p).live = s.live := by
    have hnot : p ∉ s.live := by
      intro hmem
      obtain ⟨l, hl⟩ := (hs.mem_live p).mp hmem
      rw [hp] at hl
      cases hl
    rw [Table.forget, h.live, add_live, List.filter_cons_of_neg (by simp)]
    refine List.filter_eq_self.mpr fun q hq => ?_
    have hne : q ≠ p := fun heq => hnot (heq ▸ hq)
    simpa using hne
  calc s'.forget p = ⟨(s'.forget p).locks, (s'.forget p).live, s'.queue⟩ := rfl
    _ = s := by rw [hlocks, hlive, h.queue, add_queue]

theorem lock_dequeue (hp : p ∉ s.queue.map Prod.fst) (range : Range Index)
    (priority : Priority) (inProgress : InProgress) :
    ∃ held, (s.lock p range priority inProgress).dequeue p = s.add p range held := by
  unfold Table.lock Table.lockAt
  cases s.firstConflict p range with
  | some i =>
      set held := if i = range.start then none else some i
      refine ⟨held, ?_⟩
      set pending : Pending Index Priority InProgress := ⟨⟨i, range.stop⟩, priority, p, inProgress⟩
      have hqueue : removeSeq p (insertSeq pendingNodeCallback (p, pending) s.queue) = s.queue :=
        removeSeq_insertSeq (x := (p, pending)) hp
      calc ((s.add p range held).enqueue (p, pending)).dequeue p
          = ⟨(s.add p range held).locks, (s.add p range held).live,
              removeSeq p (insertSeq pendingNodeCallback (p, pending) s.queue)⟩ := rfl
        _ = s.add p range held := by rw [hqueue]; rfl
  | none => exact ⟨some range.stop, dequeue_self hp⟩

/-! ## Requests -/

omit [LinearOrder Index] [LinearOrder Priority] in
@[simp] theorem setHeld_requestOf (s : Table Index Priority InProgress) (p q : LockPtr)
    (held : Option Index) : (s.setHeld p held).requestOf q = s.requestOf q := by
  unfold setHeld requestOf
  by_cases hqp : q = p
  · simp only [hqp, Function.update_self, Option.map_map]
    rfl
  · simp [hqp]

omit [LinearOrder Index] [LinearOrder Priority] in
@[simp] theorem dequeue_requestOf (s : Table Index Priority InProgress) (p q : LockPtr) :
    (s.dequeue p).requestOf q = s.requestOf q := rfl

@[simp] theorem enqueue_requestOf (s : Table Index Priority InProgress) (q : LockPtr) :
    (s.enqueue x).requestOf q = s.requestOf q := rfl

@[simp] theorem resumeAt_requestOf (conflict : Option Index) :
    (s.resumeAt x conflict).requestOf q = s.requestOf q := by
  unfold Table.resumeAt
  split
  · split
    · rfl
    · simp
  · simp

@[simp] theorem resume_requestOf : (s.resume x).requestOf q = s.requestOf q :=
  resumeAt_requestOf _

omit [LinearOrder Priority] in
@[simp] theorem truncate_requestOf : (s.truncate p i).requestOf q = s.requestOf q := by
  unfold Table.truncate
  split
  · simp
  · rfl

/-- No lock appears, disappears or changes its range before the end of the release. -/
theorem foldl_visit_requestOf (visits : List (LockPtr × Pending Index Priority InProgress))
    (s : Table Index Priority InProgress) (p q : LockPtr) :
    (visits.foldl (Table.visit p) s).requestOf q = s.requestOf q := by
  induction visits generalizing s with
  | nil => rfl
  | cons x visits ih =>
      refine (ih _).trans ?_
      simp [Table.visit_eq]

@[simp] theorem resume_live : (s.resume x).live = s.live := by
  unfold Table.resume Table.resumeAt
  split
  · split <;> rfl
  · rfl

theorem unlock_live : (s.unlock p).live = s.live.filter fun q => q ≠ p := by
  have hfoldl : ∀ (visits : List (LockPtr × Pending Index Priority InProgress))
      (s : Table Index Priority InProgress), (visits.foldl (Table.visit p) s).live = s.live := by
    intro visits
    induction visits with
    | nil => exact fun _ => rfl
    | cons x visits ih =>
        intro s
        refine (ih _).trans ?_
        simp [Table.visit_eq]
  rw [Table.unlock, Table.forget, hfoldl, dequeue_live]

theorem lock_locks_of_ne (hne : q ≠ p) (priority : Priority) (inProgress : InProgress) :
    (s.lock p range priority inProgress).locks q = s.locks q := by
  unfold Table.lock Table.lockAt
  split
  · rw [enqueue_locks, add_locks, if_neg hne]
  · rw [add_locks, if_neg hne]

theorem lock_requestOf_self {priority : Priority} {inProgress : InProgress} :
    (s.lock p range priority inProgress).requestOf p = some range := by
  unfold Table.lock Table.lockAt requestOf
  split
  · rw [enqueue_locks, add_locks, if_pos rfl]
    rfl
  · rw [add_locks, if_pos rfl]
    rfl

omit [LinearOrder Priority] in
theorem tryLock_requestOf_self (hnone : s.firstConflict p range = none) :
    (s.tryLock p range).requestOf p = some range := by
  rw [Table.tryLock, hnone, requestOf, add_locks, if_pos rfl]
  rfl

omit [LinearOrder Priority] in
theorem tryLock_locks_of_ne (hne : q ≠ p) : (s.tryLock p range).locks q = s.locks q := by
  unfold Table.tryLock
  split
  · rfl
  · rw [add_locks, if_neg hne]

theorem unlock_requestOf (hne : q ≠ p) : (s.unlock p).requestOf q = s.requestOf q := by
  rw [Table.unlock, requestOf, forget_locks, if_neg hne]
  exact foldl_visit_requestOf _ _ _ _

@[simp] theorem unlock_locks_self : (s.unlock p).locks p = none := by
  rw [Table.unlock, forget_locks, if_pos rfl]

theorem Quiet.unlock (h : s.Quiet strict) (hl : s.locks p = some l) :
    (s.unlock p).Quiet strict :=
  (h.releasing hl).foldl.forget

end Table

end Interlock.Core
