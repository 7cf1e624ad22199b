import Interlock.Core.History
import Interlock.Core.Refr

/-!
# A table and its array of virtual locks

What relates a table and an array of virtual locks is `Mirrors`: the same locks, as far along, and
the same waiters at each index.  Each step of the array, down to the release of one virtual lock,
keeps it.

The two treat waiters in different ways.  When an index becomes free, the array takes each of its
waiters out of the list and puts the ones that stay back, with a new number; the core leaves them
where they are.  In the middle of this the lists differ, and `Mirrors` has the order in the array as
a parameter, the `fifo` of each index and priority.
-/

namespace Interlock.Core

open Memory RbTree

/-- Lists that are sorted by `key` are the same if they are the same for each value of it. -/
theorem eq_of_classes {α Key : Type} [LinearOrder Key] (key : α → Key) {xs ys : List α}
    (hxs : xs.Pairwise fun x y => key y ≤ key x) (hys : ys.Pairwise fun x y => key y ≤ key x)
    (h : ∀ c, xs.filter (fun x => key x = c) = ys.filter fun y => key y = c) : xs = ys := by
  have hmem : ∀ xs ys : List α,
    (∀ c, xs.filter (fun x => key x = c) = ys.filter fun y => key y = c) →
      ∀ x, x ∈ xs ↔ x ∈ ys := by
    intro xs ys h x
    have hx : x ∈ xs.filter (fun y => key y = key x) ↔ x ∈ ys.filter fun y => key y = key x := by
      rw [h]
    simpa using hx
  induction xs generalizing ys with
  | nil =>
      symm
      rw [List.eq_nil_iff_forall_not_mem]
      exact fun y hy => absurd ((hmem _ _ h y).mpr hy) List.not_mem_nil
  | cons x xs ih =>
      cases ys with
      | nil => exact absurd ((hmem _ _ h x).mp List.mem_cons_self) List.not_mem_nil
      | cons y ys =>
          obtain ⟨hx, hxs'⟩ := List.pairwise_cons.mp hxs
          obtain ⟨hy, hys'⟩ := List.pairwise_cons.mp hys
          have hkey : key x = key y := by
            apply le_antisymm
            · rcases List.mem_cons.mp ((hmem _ _ h x).mp List.mem_cons_self) with heq | hmem'
              · rw [heq]
              · exact hy x hmem'
            · rcases List.mem_cons.mp ((hmem _ _ h y).mpr List.mem_cons_self) with heq | hmem'
              · rw [heq]
              · exact hx y hmem'
          have hfirst := h (key x)
          rw [List.filter_cons_of_pos (by simp), List.filter_cons_of_pos (by simp [hkey])] at hfirst
          obtain ⟨rfl, -⟩ := List.cons_eq_cons.mp hfirst
          have hrest : ∀ c, xs.filter (fun z => key z = c) = ys.filter fun z => key z = c := by
            intro c
            have hc := h c
            rw [List.filter_cons, List.filter_cons] at hc
            split at hc
            · exact (List.cons_eq_cons.mp hc).2
            · exact hc
          rw [ih hxs' hys' hrest]

section Fifo
variable {Index Priority InProgress : Type} [LinearOrder Index] [LinearOrder Priority]

/-- The waiters with the priority `c`. -/
def classOf (c : Priority) (xs : List (LockPtr × Pending Index Priority InProgress)) :
    List LockPtr :=
  (xs.filter fun x => x.2.priority = c).map Prod.fst

section ClassOf
variable {c : Priority} {xs ys : List (LockPtr × Pending Index Priority InProgress)}

omit [LinearOrder Index]

theorem classOf_append : classOf c (xs ++ ys) = classOf c xs ++ classOf c ys := by
  unfold classOf
  rw [List.filter_append, List.map_append]

theorem filter_classOf (p : LockPtr) :
    (classOf c xs).filter (fun q => q ≠ p) = classOf c (xs.filter fun x => x.1 ≠ p) := by
  unfold classOf
  rw [List.filter_map, List.filter_filter, List.filter_filter]
  congr 2
  funext x
  exact Bool.and_comm _ _

end ClassOf

namespace Table
variable {strict : Prop} {s : Table Index Priority InProgress} {p : LockPtr} {l : Lock Index}
  {range : Range Index} {i j : Index} {c : Priority}
  {x y : LockPtr × Pending Index Priority InProgress}

/-- Those that wait at `i`, in the order in which they are tried. -/
def waitersAt (s : Table Index Priority InProgress) (i : Index) :
    List (LockPtr × Pending Index Priority InProgress) :=
  (s.queue.filter fun x => x.2.range.start = i).reverse

/-- Those that wait at `i` with the priority `c`, in this order. -/
def fifo (s : Table Index Priority InProgress) (i : Index) (c : Priority) : List LockPtr :=
  classOf c (s.waitersAt i)

omit [LinearOrder Priority] in
theorem mem_waitersAt : x ∈ s.waitersAt i ↔ x ∈ s.queue ∧ x.2.range.start = i := by
  simp [waitersAt]

theorem mem_fifo : p ∈ s.fifo i c ↔
    ∃ x ∈ s.queue, x.1 = p ∧ x.2.range.start = i ∧ x.2.priority = c := by
  simp only [fifo, classOf, List.mem_map, List.mem_filter, mem_waitersAt, decide_eq_true_eq]
  constructor
  · rintro ⟨x, ⟨⟨hx, hi⟩, hc⟩, hp⟩
    exact ⟨x, hx, hp, hi, hc⟩
  · rintro ⟨x, hx, hp, hi, hc⟩
    exact ⟨x, ⟨⟨hx, hi⟩, hc⟩, hp⟩

omit [LinearOrder Priority] in
theorem waitersAt_dequeue (s : Table Index Priority InProgress) (p : LockPtr) (i : Index) :
    (s.dequeue p).waitersAt i = (s.waitersAt i).filter fun x => x.1 ≠ p := by
  unfold waitersAt dequeue removeSeq
  rw [List.filter_reverse, List.filter_filter, List.filter_filter]
  congr 2
  funext x
  exact Bool.and_comm _ _

theorem fifo_dequeue (s : Table Index Priority InProgress) (p : LockPtr) (i : Index)
    (c : Priority) :
    (s.dequeue p).fifo i c = (s.fifo i c).filter fun q => q ≠ p := by
  unfold fifo
  rw [waitersAt_dequeue, filter_classOf]

/-- A new waiter is the first of its kind in the queue. -/
theorem filter_enqueue (keep : LockPtr × Pending Index Priority InProgress → Bool)
    (hkeep : ∀ y, keep y = true → keep x = true →
      ¬ (y.2.range.start < x.2.range.start ∨
        (y.2.range.start = x.2.range.start ∧ y.2.priority < x.2.priority))) :
    (s.enqueue x).queue.filter keep = (if keep x then [x] else []) ++ s.queue.filter keep := by
  unfold enqueue insertSeq
  set front := s.queue.takeWhile fun y => goesRight pendingNodeCallback x.2 y.2 with hfront
  set back := s.queue.dropWhile fun y => goesRight pendingNodeCallback x.2 y.2
  have hqueue : s.queue.filter keep = front.filter keep ++ back.filter keep := by
    rw [← List.filter_append, List.takeWhile_append_dropWhile]
  rw [hqueue, List.filter_append, List.filter_cons]
  by_cases hx : keep x = true
  · have hnone : front.filter keep = [] := by
      refine List.filter_eq_nil_iff.mpr fun y hy hky => ?_
      have hright := List.mem_takeWhile_imp hy
      exact hkeep y hky hx (goesRight_pending.mp hright)
    rw [if_pos hx, if_pos hx, hnone]
    rfl
  · rw [if_neg hx, if_neg hx, List.nil_append]

theorem waitersAt_enqueue_of_ne (hi : x.2.range.start ≠ i) :
    (s.enqueue x).waitersAt i = s.waitersAt i := by
  unfold waitersAt
  rw [filter_enqueue _ fun y _ hx => absurd (by simpa using hx) hi, if_neg (by simpa using hi),
    List.nil_append]

/-- A new waiter goes behind all others of its index and priority. -/
theorem fifo_enqueue (s : Table Index Priority InProgress)
    (x : LockPtr × Pending Index Priority InProgress) (i : Index) (c : Priority) :
    (s.enqueue x).fifo i c =
      s.fifo i c ++ if x.2.range.start = i ∧ x.2.priority = c then [x.1] else [] := by
  have hkeep : ∀ s : Table Index Priority InProgress, s.fifo i c =
      ((s.queue.filter fun y => y.2.priority = c ∧ y.2.range.start = i).map Prod.fst).reverse := by
    intro s
    unfold fifo classOf waitersAt
    rw [List.filter_reverse, List.filter_filter, List.map_reverse]
    simp only [Bool.decide_and]
  rw [hkeep, hkeep, filter_enqueue]
  · by_cases hx : x.2.range.start = i ∧ x.2.priority = c
    · rw [if_pos hx, if_pos (by simpa using hx.symm)]
      simp
    · rw [if_neg hx, if_neg (by simpa [and_comm] using hx), List.nil_append, List.append_nil]
  · intro y hy hx
    simp only [decide_eq_true_eq] at hy hx
    rw [hy.1, hy.2, hx.1, hx.2]
    simp

/-- Those that wait at an index are tried by priority. -/
theorem WellLinked.waitersAt_sorted (h : s.WellLinked) (i : Index) :
    (s.waitersAt i).Pairwise fun x y => y.2.priority ≤ x.2.priority := by
  unfold waitersAt
  rw [List.pairwise_reverse]
  refine (h.sorted.filter _).imp_of_mem fun {x y} hx hy hle => ?_
  have hxi : x.2.range.start = i := by simpa using (List.mem_filter.mp hx).2
  have hyi : y.2.range.start = i := by simpa using (List.mem_filter.mp hy).2
  rcases hle with hlt | ⟨-, hle⟩
  · rw [hxi, hyi] at hlt
    exact absurd hlt (lt_irrefl i)
  · exact hle

theorem WellLinked.waitersAt_nodup (h : s.WellLinked) (i : Index) :
    ((s.waitersAt i).map Prod.fst).Nodup := by
  unfold waitersAt
  rw [List.map_reverse, List.nodup_reverse]
  exact h.queue_nodup.sublist (List.filter_sublist.map _)

/-! ## Conflicts -/

/-- A lock that is in the way of `p` holds `i`. -/
def Taken (s : Table Index Priority InProgress) (p : LockPtr) (i : Index) : Prop :=
  ∃ q l, s.locks q = some l ∧ conflicting p q ∧ l.Holds i

theorem Sound.firstConflict_isFirst_taken (h : s.Sound strict) (hstrict : strict)
    (hrange : range.start < range.stop) :
    IsFirst (fun i => range.start ≤ i ∧ i < range.stop ∧ s.Taken p i)
      (s.firstConflict p range) := by
  have hfirst := h.firstConflict_isFirst p range
  cases hconflict : s.firstConflict p range with
  | none =>
      intro j hj
      obtain ⟨hstart, hstop, q, l, hl, hconf, hholds⟩ := hj
      obtain ⟨k, -, hk⟩ := Lock.conflict_of_holds hholds hstart hstop
      rw [hconflict] at hfirst
      exact hfirst k ⟨q, l, hl, hconf, hk⟩
  | some i =>
      rw [hconflict] at hfirst
      obtain ⟨hstart, hstop⟩ := h.le_firstConflict hconflict
      refine ⟨⟨hstart, ?_, h.holder_of_firstConflict hstrict hconflict⟩, fun j hj => ?_⟩
      · rcases hstop with hstop | rfl
        · exact hstop
        · exact hrange
      · obtain ⟨hj, hjstop, q, l, hl, hconf, hholds⟩ := hj
        obtain ⟨k, hkj, hk⟩ := Lock.conflict_of_holds hholds hj hjstop
        exact (hfirst.2 k ⟨q, l, hl, hconf, hk⟩).trans hkj

/-- Those that wait in `start..stop`, in the order in which they are tried. -/
def waitersIn (s : Table Index Priority InProgress) (start stop : Index) :
    List (LockPtr × Pending Index Priority InProgress) :=
  (s.queue.filter fun x => start ≤ x.2.range.start ∧ x.2.range.start < stop).reverse

/-- The locks that are complete after the waiters of a list have been tried. -/
def completed : Table Index Priority InProgress →
    List (LockPtr × Pending Index Priority InProgress) → List LockPtr
  | _, [] => []
  | s, x :: visits =>
      if (s.firstConflict x.1 x.2.range).isNone then x.1 :: completed (s.resume x) visits
      else completed (s.resume x) visits

theorem completed_append (s : Table Index Priority InProgress)
    (xs ys : List (LockPtr × Pending Index Priority InProgress)) :
    s.completed (xs ++ ys) = s.completed xs ++ (xs.foldl resume s).completed ys := by
  induction xs generalizing s with
  | nil => rfl
  | cons x xs ih =>
      rw [List.cons_append, completed, completed, ih, List.foldl_cons]
      split <;> rfl

/-- Who waits in front of `x` is not affected when `x` is tried. -/
theorem Sound.resume_waitersIn (h : s.Sound strict) (hx : x ∈ s.queue) (start : Index)
    (hi : i ≤ x.2.range.start) : (s.resume x).waitersIn start i = s.waitersIn start i := by
  obtain ⟨l, hl, hrange, -⟩ := h.exists_lock hx
  have hpos : i ≤ l.pos := by rwa [hrange] at hi
  have hdequeue : (s.dequeue x.1).waitersIn start i = s.waitersIn start i := by
    unfold waitersIn Table.dequeue removeSeq
    rw [List.filter_filter]
    congr 1
    refine List.filter_congr fun y hy => ?_
    by_cases hyx : y.1 = x.1
    · have hfind := h.find_queue hy
      rw [hyx, h.find_queue hx] at hfind
      obtain rfl := Option.some.inj hfind
      simp [not_lt.mpr hi]
    · simp [hyx]
  rcases h.resume_cases hx hl with ⟨-, heq⟩ | ⟨j, -, hlt, -, heq⟩ | ⟨-, heq⟩
  · rw [heq]
  · rw [heq, ← hdequeue]
    have hj : ¬ j < i := not_lt.mpr (hpos.trans hlt.le)
    unfold waitersIn
    rw [filter_enqueue _ fun y _ hmove =>
      absurd (of_decide_eq_true hmove : start ≤ j ∧ j < i).2 hj, if_neg (by simp [moveTo, hj])]
    rfl
  · rw [heq]
    exact hdequeue

end Table

end Fifo

variable {Priority InProgress : Type} [LinearOrder Priority]

/-- The locks of a core have their addresses as numbers.  An attempt that fails has no lock state to
keep: its number is `none`. -/
abbrev LockId := Option LockPtr

/-- `first` shows one of the elements, if there are any. -/
structure Picks (first : List (LockId × Bool) → Option (LockId × Bool)) : Prop where
  mem : ∀ owners owner, first owners = some owner → owner ∈ owners
  eq_nil : ∀ owners, first owners = none → owners = []

/-! ## The relation -/

/-- The lock of the array that stands for `l`. -/
structure StandsFor (lock : Refr.Lock Priority) (p : LockPtr) (l : Lock ℕ) : Prop where
  range : lock.range = l.request
  write : lock.write = p.kind.isWrite
  pos : lock.pos = l.pos

/-- The array has the locks of a table. -/
structure SameLocks (s : Table ℕ Priority InProgress)
    (locks : LockId → Option (Refr.Lock Priority)) :
    Prop where
  lock_none : ∀ p, s.locks p = none → locks (some p) = none
  lock_some : ∀ p l, s.locks p = some l → ∃ lock, locks (some p) = some lock ∧ StandsFor lock p l
  attempt : locks none = none

/-- The virtual locks are owned by the locks of a table, and by the owners `extra`. -/
def SameOwners (extra : LockId × Bool → ℕ → Prop) (s : Table ℕ Priority InProgress)
    (rwlocks : ℕ → Refr.RwLock LockId Priority) : Prop :=
  ∀ i owner, owner ∈ (rwlocks i).owners ↔
    (∃ q l, owner = (some q, q.kind.isWrite) ∧ s.locks q = some l ∧ l.Holds i) ∨ extra owner i

/-- The wait lists are in the order of `fifo`. -/
structure SameWaits (fifo : ℕ → Priority → List LockPtr) (rwlocks : ℕ → Refr.RwLock LockId Priority)
    (locks : LockId → Option (Refr.Lock Priority)) : Prop where
  ordered : ∀ i, (rwlocks i).WellOrdered
  waiters : ∀ i c, (rwlocks i).waiters c = (fifo i c).map some
  /-- Whoever is in a wait list knows it ... -/
  listed : ∀ i, ∀ w ∈ (rwlocks i).waits, ∃ lock, locks w.id = some lock ∧ lock.pos = i ∧
    lock.write = w.write ∧ lock.priority = w.priority ∧ lock.order = some w.order
  /-- ... and whoever has a number is in the wait list. -/
  waits : ∀ id lock order, locks id = some lock → lock.order = some order →
    ⟨id, lock.write, lock.priority, order⟩ ∈ (rwlocks lock.pos).waits

/-- The virtual locks are those of a table, apart from the owners `extra` and the order `fifo`. -/
structure Mirrors (extra : LockId × Bool → ℕ → Prop) (s : Table ℕ Priority InProgress)
    (fifo : ℕ → Priority → List LockPtr) (r : Refr.RwLockSet LockId Priority) : Prop where
  locks : SameLocks s r.locks
  owners : SameOwners extra s r.rwlocks
  waits : SameWaits fifo r.rwlocks r.locks

/-- Nobody. -/
def nobody : LockId × Bool → ℕ → Prop := fun _ _ => False

/-- `owner` has `start..stop`. -/
def owned (owner : LockId × Bool) (start stop : ℕ) : LockId × Bool → ℕ → Prop :=
  fun other i => other = owner ∧ start ≤ i ∧ i < stop

/-- Between calls. -/
abbrev InStep (s : Table ℕ Priority InProgress) (r : Refr.RwLockSet LockId Priority) : Prop :=
  Mirrors nobody s s.fifo r

/-- `p` leaves. -/
def without (fifo : ℕ → Priority → List LockPtr) (p : LockPtr) : ℕ → Priority → List LockPtr :=
  fun i c => (fifo i c).filter fun q => q ≠ p

/-- `p` begins to wait where its conflict is. -/
def standsAt (fifo : ℕ → Priority → List LockPtr) (p : LockPtr) (c : Priority) :
    Option ℕ → ℕ → Priority → List LockPtr
  | some i => fun j d => fifo j d ++ if i = j ∧ c = d then [p] else []
  | none => fifo

theorem standsAt_some (fifo : ℕ → Priority → List LockPtr) (p : LockPtr) (c : Priority) (i j : ℕ)
    (d : Priority) :
    standsAt fifo p c (some i) j d = fifo j d ++ if i = j ∧ c = d then [p] else [] := rfl

section Relation
variable {first : List (LockId × Bool) → Option (LockId × Bool)}
  {extra : LockId × Bool → ℕ → Prop} {s s' : Table ℕ Priority InProgress}
  {fifo : ℕ → Priority → List LockPtr} {r : Refr.RwLockSet LockId Priority}
  {rwlocks : ℕ → Refr.RwLock LockId Priority} {locks : LockId → Option (Refr.Lock Priority)}
  {lock : Refr.Lock Priority} {p : LockPtr} {l l' : Lock ℕ} {range : Range ℕ} {i e : ℕ}
  {strict : Prop}

theorem Mirrors.init : InStep (.empty : Table ℕ Priority InProgress) .new where
  locks := ⟨fun p _ => rfl, fun p l hl => (by cases hl), rfl⟩
  owners i owner := by simp [Refr.RwLockSet.new, Refr.RwLock.new, Table.empty, nobody]
  waits := ⟨fun i => ⟨List.Pairwise.nil, fun w hw => absurd hw List.not_mem_nil⟩, fun i c => rfl,
    fun i w hw => absurd hw List.not_mem_nil, fun id lock order hlock => (by cases hlock)⟩

/-- A virtual lock is blocked if and only if a lock of the table is in the way. -/
theorem SameOwners.blocked (h : SameOwners extra s rwlocks) (hs : s.Sound strict)
    (hfirst : Picks first)
    (hextra : ∀ owner, ¬ extra owner i) :
    (rwlocks i).blocked first p.kind.isWrite = true ↔ s.Taken p i := by
  have howners : ∀ owner, owner ∈ (rwlocks i).owners ↔
      ∃ q l, owner = (some q, q.kind.isWrite) ∧ s.locks q = some l ∧ l.Holds i := by
    intro owner
    rw [h i owner, or_iff_left (hextra owner)]
  unfold Refr.RwLock.blocked Table.Taken conflicting
  cases hp : p.kind.isWrite with
  | true =>
      rw [if_pos rfl, Bool.not_eq_true', List.isEmpty_eq_false_iff_exists_mem]
      constructor
      · intro hmem
        obtain ⟨owner, hmem⟩ := hmem
        obtain ⟨q, l, -, hl, hholds⟩ := (howners owner).mp hmem
        exact ⟨q, l, hl, rfl, hholds⟩
      · intro htaken
        obtain ⟨q, l, hl, -, hholds⟩ := htaken
        exact ⟨_, (howners _).mpr ⟨q, l, rfl, hl, hholds⟩⟩
  | false =>
      rw [if_neg Bool.false_ne_true]
      simp only [Bool.false_or]
      cases howner : first (rwlocks i).owners with
      | none =>
          have hnil := hfirst.eq_nil _ howner
          constructor
          · intro hblocked
            exact absurd hblocked Bool.false_ne_true
          · intro htaken
            obtain ⟨q, l, hl, -, hholds⟩ := htaken
            have hmem := (howners (some q, q.kind.isWrite)).mpr ⟨q, l, rfl, hl, hholds⟩
            rw [hnil] at hmem
            exact absurd hmem List.not_mem_nil
      | some owner =>
          obtain ⟨q, l, rfl, hl, hholds⟩ := (howners owner).mp (hfirst.mem _ _ howner)
          constructor
          · intro hwrite
            exact ⟨q, l, hl, hwrite, hholds⟩
          · intro htaken
            obtain ⟨q', l', hl', hwrite, hholds'⟩ := htaken
            -- A writer shares the index with nobody
            have hqq : q = q' := by
              by_contra hne
              have hconf : conflicting q' q = true := by simp [conflicting, hwrite]
              exact hs.exclusive q' l' i hl' hholds' q l hne hl hconf hholds
            rw [hqq]
            exact hwrite

/-- A lock acquires its range up to the first conflict. -/
theorem SameOwners.acquire (h : SameOwners extra s rwlocks) (hs : s.Sound True)
    (hfirst : Picks first)
    (hrange : range.start < range.stop) (hextra : ∀ owner i, extra owner i → i < range.start)
    (id : LockId) : ∃ e, range.start ≤ e ∧
      ((s.firstConflict p range = some e ∧ e < range.stop) ∨
        (s.firstConflict p range = none ∧ e = range.stop)) ∧
      Refr.acquire first id p.kind.isWrite (range.stop - range.start) range.start rwlocks =
        (e, Refr.occupy (id, p.kind.isWrite) range.start e rwlocks) := by
  obtain ⟨e, hle, hstop, hfree, hend, heq⟩ := Refr.acquire_eq first id p.kind.isWrite
    (range.stop - range.start) range.start rwlocks
  have hblocked : ∀ i, range.start ≤ i →
      ((rwlocks i).blocked first p.kind.isWrite = true ↔ s.Taken p i) := fun i hi =>
    h.blocked hs hfirst fun owner howner => absurd (hextra owner i howner) (by omega)
  have hbefore : ∀ i, range.start ≤ i → i < e → ¬ s.Taken p i := by
    intro i hi hlt
    rw [← hblocked i hi, hfree i hi hlt]
    exact Bool.false_ne_true
  have hisFirst := hs.firstConflict_isFirst_taken (p := p) trivial hrange
  refine ⟨e, hle, ?_, heq⟩
  by_cases hlt : e < range.stop
  · refine Or.inl ⟨?_, hlt⟩
    apply hisFirst.unique
    refine ⟨⟨hle, hlt, (hblocked e hle).mp (hend (by omega))⟩, fun j hj => ?_⟩
    by_contra hje
    exact hbefore j hj.1 (by omega) hj.2.2
  · refine Or.inr ⟨?_, by omega⟩
    apply hisFirst.unique
    intro j hj
    exact hbefore j hj.1 (by omega) hj.2.2

/-! ## The steps of the array -/

omit [LinearOrder Priority] in
theorem SameLocks.of_update (h : SameLocks s (Function.update locks (some p) (some lock)))
    (hl : s.locks p = some l) : StandsFor lock p l := by
  obtain ⟨lock', hlock', hstands⟩ := h.lock_some p l hl
  rw [Function.update_self] at hlock'
  obtain rfl := Option.some.inj hlock'
  exact hstands

omit [LinearOrder Priority] in
/-- One lock has changed. -/
theorem SameLocks.update (h : SameLocks s locks) (hother : ∀ q, q ≠ p → s'.locks q = s.locks q)
    (hl' : s'.locks p = some l') (hstands : StandsFor lock p l') :
    SameLocks s' (Function.update locks (some p) (some lock)) := by
  refine ⟨fun q hq => ?_, fun q lq hlq => ?_, ?_⟩
  · have hqp : q ≠ p := fun heq => by simp [heq, hl'] at hq
    rw [Function.update_of_ne (by simpa using hqp)]
    exact h.lock_none q (hother q hqp ▸ hq)
  · by_cases hqp : q = p
    · subst hqp
      obtain rfl := Option.some.inj (hl'.symm.trans hlq)
      exact ⟨lock, Function.update_self _ _ _, hstands⟩
    · rw [Function.update_of_ne (by simpa using hqp)]
      exact h.lock_some q lq (hother q hqp ▸ hlq)
  · rw [Function.update_of_ne (by simp)]
    exact h.attempt

omit [LinearOrder Priority] in
theorem SameLocks.forget (h : SameLocks s locks) (p : LockPtr) :
    SameLocks (s.forget p) (Function.update locks (some p) none) := by
  refine ⟨fun q hq => ?_, fun q lq hlq => ?_, ?_⟩
  · by_cases hqp : q = p
    · rw [hqp, Function.update_self]
    · rw [Function.update_of_ne (by simpa using hqp)]
      rw [Table.forget_locks, if_neg hqp] at hq
      exact h.lock_none q hq
  · rw [Table.forget_locks] at hlq
    split at hlq
    · cases hlq
    · next hqp =>
        rw [Function.update_of_ne (by simpa using hqp)]
        exact h.lock_some q lq hlq
  · rw [Function.update_of_ne (by simp)]
    exact h.attempt

omit [LinearOrder Priority] in
/-- `p` acquires the virtual locks up to `e`. -/
theorem SameOwners.occupy (h : SameOwners extra s rwlocks) (hl : s.locks p = some l)
    (hstart : l.start ≤ l.pos) (hle : l.pos ≤ e) (hother : ∀ q, q ≠ p → s'.locks q = s.locks q)
    (hl' : s'.locks p = some l') (hrequest : l'.request = l.request) (hpos : l'.pos = e) :
    SameOwners extra s' (Refr.occupy (some p, p.kind.isWrite) l.pos e rwlocks) := by
  intro i owner
  have hholds : l'.Holds i ↔ l.Holds i ∨ (l.pos ≤ i ∧ i < e) := by
    have hstart' : l'.start = l.start := congrArg Range.start hrequest
    unfold Lock.Holds
    omega
  rw [Refr.mem_occupy_owners, h i owner, ← or_assoc]
  apply or_congr_left
  constructor
  · intro howner
    rcases howner with ⟨rfl, hi⟩ | ⟨q, lq, rfl, hlq, hq⟩
    · exact ⟨p, l', rfl, hl', hholds.mpr (Or.inr hi)⟩
    · by_cases hqp : q = p
      · subst hqp
        obtain rfl := Option.some.inj (hl.symm.trans hlq)
        exact ⟨q, l', rfl, hl', hholds.mpr (Or.inl hq)⟩
      · exact ⟨q, lq, rfl, hother q hqp ▸ hlq, hq⟩
  · intro howner
    obtain ⟨q, lq, rfl, hlq, hq⟩ := howner
    by_cases hqp : q = p
    · subst hqp
      obtain rfl := Option.some.inj (hl'.symm.trans hlq)
      rcases hholds.mp hq with hq | hi
      · exact Or.inr ⟨q, l, rfl, hl, hq⟩
      · exact Or.inl ⟨rfl, hi⟩
    · exact Or.inr ⟨q, lq, rfl, hother q hqp ▸ hlq, hq⟩

omit [LinearOrder Priority] in
theorem SameOwners.congr {rwlocks' : ℕ → Refr.RwLock LockId Priority}
    (h : SameOwners extra s rwlocks)
    (howners : ∀ i, (rwlocks' i).owners = (rwlocks i).owners) : SameOwners extra s rwlocks' := by
  intro i owner
  rw [howners, h i owner]

/-- The lists do not depend on anything else. -/
theorem SameWaits.congr {rwlocks' : ℕ → Refr.RwLock LockId Priority}
    {locks' : LockId → Option (Refr.Lock Priority)} (h : SameWaits fifo rwlocks locks)
    (hwaits : ∀ i, (rwlocks' i).waits = (rwlocks i).waits)
    (hnext : ∀ i, (rwlocks i).nextOrder ≤ (rwlocks' i).nextOrder)
    (hlocks : ∀ id lock, lock.order ≠ none → (locks' id = some lock ↔ locks id = some lock)) :
    SameWaits fifo rwlocks' locks' where
  ordered i := by
    refine ⟨hwaits i ▸ (h.ordered i).sorted, fun w hw => ?_⟩
    exact ((h.ordered i).order_lt w (hwaits i ▸ hw)).trans_le (hnext i)
  waiters i c := by
    rw [← h.waiters i c]
    unfold Refr.RwLock.waiters
    rw [hwaits i]
  listed i w hw := by
    obtain ⟨lock, hlock, hpos, hwrite, hpriority, horder⟩ := h.listed i w (hwaits i ▸ hw)
    exact ⟨lock, (hlocks _ _ (by simp [horder])).mpr hlock, hpos, hwrite, hpriority, horder⟩
  waits id lock order hlock horder := by
    rw [hwaits]
    exact h.waits id lock order ((hlocks _ _ (by simp [horder])).mp hlock) horder

/-- `p` begins to wait where it stands. -/
theorem SameWaits.insert (hlock : lock.order = none)
    (h : SameWaits fifo rwlocks (Function.update locks (some p) (some lock))) :
    SameWaits (standsAt fifo p lock.priority (some lock.pos))
      (Function.update rwlocks lock.pos { rwlocks lock.pos with
        nextOrder := (rwlocks lock.pos).nextOrder + 1,
        waits := Refr.insertWait ⟨some p, lock.write, lock.priority, (rwlocks lock.pos).nextOrder⟩
          (rwlocks lock.pos).waits })
      (Function.update locks (some p)
        (some { lock with order := some (rwlocks lock.pos).nextOrder })) := by
  set w : Refr.Wait LockId Priority :=
    ⟨some p, lock.write, lock.priority, (rwlocks lock.pos).nextOrder⟩ with hw
  have hmem : ∀ v, v ∈ Refr.insertWait w (rwlocks lock.pos).waits ↔
      v = w ∨ v ∈ (rwlocks lock.pos).waits := fun v =>
    Refr.mem_insertWait ((h.ordered lock.pos).cmp_ne rfl)
  have hid : ∀ i, ∀ v ∈ (rwlocks i).waits, v.id ≠ some p := by
    intro i v hv heq
    obtain ⟨lock', hlock', -, -, -, horder⟩ := h.listed i v hv
    rw [heq, Function.update_self] at hlock'
    rw [← Option.some.inj hlock', hlock] at horder
    cases horder
  refine ⟨fun i => ?_, fun i c => ?_, fun i v hv => ?_, fun id lock' order hlock' horder => ?_⟩
  · by_cases hi : i = lock.pos
    · rw [hi, Function.update_self]
      exact (h.ordered lock.pos).insert rfl
    · rw [Function.update_of_ne hi]
      exact h.ordered i
  · by_cases hi : i = lock.pos
    · rw [hi, Function.update_self, (h.ordered lock.pos).waiters_insert (w := w) rfl c, h.waiters]
      simp only [standsAt, true_and, List.map_append]
      split <;> rfl
    · rw [Function.update_of_ne hi, h.waiters]
      simp [standsAt, Ne.symm hi]
  · by_cases hi : i = lock.pos
    · rw [hi, Function.update_self] at hv
      rcases (hmem v).mp hv with rfl | hv
      · exact ⟨_, Function.update_self _ _ _, hi.symm, rfl, rfl, rfl⟩
      · have hlisted := h.listed lock.pos v hv
        rw [Function.update_of_ne (hid _ v hv)] at hlisted ⊢
        rwa [hi]
    · rw [Function.update_of_ne hi] at hv
      have hlisted := h.listed i v hv
      rwa [Function.update_of_ne (hid _ v hv)] at hlisted ⊢
  · by_cases hp : id = some p
    · subst hp
      rw [Function.update_self] at hlock'
      obtain rfl := Option.some.inj hlock'
      obtain rfl := Option.some.inj horder
      rw [Function.update_self]
      exact (hmem _).mpr (Or.inl rfl)
    · rw [Function.update_of_ne hp] at hlock'
      have hwaits := h.waits id lock' order (by rwa [Function.update_of_ne hp]) horder
      by_cases hi : lock'.pos = lock.pos
      · rw [hi] at hwaits ⊢
        rw [Function.update_self]
        exact (hmem _).mpr (Or.inr hwaits)
      · rwa [Function.update_of_ne hi]

/-- Whoever has no number waits nowhere. -/
theorem SameWaits.without_of_none (h : SameWaits fifo rwlocks locks)
    (hlock : locks (some p) = some lock)
    (horder : lock.order = none) : without fifo p = fifo := by
  funext i c
  refine List.filter_eq_self.mpr fun q hq => ?_
  have hqp : q ≠ p := by
    rintro rfl
    have hmem : some q ∈ (rwlocks i).waiters c := by
      rw [h.waiters]
      exact List.mem_map_of_mem hq
    obtain ⟨w, hw, hid, -⟩ := Refr.RwLock.mem_waiters.mp hmem
    obtain ⟨lock', hlock', -, -, -, horder'⟩ := h.listed i w hw
    rw [hid, hlock] at hlock'
    rw [← Option.some.inj hlock', horder] at horder'
    cases horder'
  simpa using hqp

section Waiting
variable {order : ℕ} (h : SameWaits fifo rwlocks locks) (hlock : locks (some p) = some lock)
  (horder : lock.order = some order)
include h hlock horder

/-- `p` waits nowhere else, and nobody else has its number. -/
theorem SameWaits.cmp_eq_iff {v : Refr.Wait LockId Priority} (hv : v ∈ (rwlocks lock.pos).waits) :
    v.cmp ⟨some p, lock.write, lock.priority, order⟩ = .eq ↔ v.id = some p := by
  constructor
  · intro heq
    rw [(h.ordered lock.pos).eq_of_cmp hv (h.waits _ _ _ hlock horder) heq]
  · intro hid
    obtain ⟨lock', hlock', -, -, hpriority, horder'⟩ := h.listed lock.pos v hv
    rw [hid, hlock] at hlock'
    obtain rfl := Option.some.inj hlock'
    rw [horder] at horder'
    exact Refr.cmp_eq_eq.mpr ⟨hpriority.symm, (Option.some.inj horder').symm⟩

omit horder in
theorem SameWaits.pos_of_id {v : Refr.Wait LockId Priority} (hv : v ∈ (rwlocks i).waits)
    (hid : v.id = some p) : i = lock.pos := by
  obtain ⟨lock', hlock', hpos, -⟩ := h.listed i v hv
  rw [hid, hlock] at hlock'
  rw [← hpos, ← Option.some.inj hlock']

/-- Without the wait of `p` the lists are those without `p`. -/
theorem SameWaits.filter_waits (i : ℕ) : (Function.update rwlocks lock.pos { rwlocks lock.pos with
      waits := (rwlocks lock.pos).waits.filter fun v =>
        v.cmp ⟨some p, lock.write, lock.priority, order⟩ ≠ .eq } i).waits =
    (rwlocks i).waits.filter fun v => v.id ≠ some p := by
  by_cases hi : i = lock.pos
  · rw [hi, Function.update_self]
    exact List.filter_congr fun v hv => by
      simpa using h.cmp_eq_iff hlock horder hv
  · rw [Function.update_of_ne hi]
    refine (List.filter_eq_self.mpr fun v hv => ?_).symm
    simpa using fun hid => hi (h.pos_of_id hlock hv hid)

theorem SameWaits.remove : SameWaits (without fifo p)
    (Function.update rwlocks lock.pos { rwlocks lock.pos with
      waits := (rwlocks lock.pos).waits.filter fun v =>
        v.cmp ⟨some p, lock.write, lock.priority, order⟩ ≠ .eq })
    (Function.update locks (some p) (some { lock with order := none })) := by
  refine ⟨fun i => ?_, fun i c => ?_, fun i v hv => ?_, fun id lock' order' hlock' horder' => ?_⟩
  · by_cases hi : i = lock.pos
    · rw [hi, Function.update_self]
      exact (h.ordered lock.pos).remove _
    · rw [Function.update_of_ne hi]
      exact h.ordered i
  · calc (Function.update rwlocks lock.pos _ i).waiters c
        = ((rwlocks i).waiters c).filter fun id => id ≠ some p := by
          unfold Refr.RwLock.waiters
          rw [h.filter_waits hlock horder, List.filter_filter, List.filter_map, List.filter_filter]
          congr 2
          funext v
          exact Bool.and_comm _ _
      _ = (without fifo p i c).map some := by
          rw [h.waiters, without, List.filter_map]
          congr 2
          funext q
          simp
  · rw [h.filter_waits hlock horder] at hv
    obtain ⟨hv, hne⟩ := List.mem_filter.mp hv
    rw [Function.update_of_ne (by simpa using hne)]
    exact h.listed i v hv
  · by_cases hp : id = some p
    · rw [hp, Function.update_self] at hlock'
      rw [← Option.some.inj hlock'] at horder'
      cases horder'
    · rw [Function.update_of_ne hp] at hlock'
      rw [h.filter_waits hlock horder, List.mem_filter]
      exact ⟨h.waits id lock' order' hlock' horder', by simpa using hp⟩

end Waiting

/-- `p` leaves the wait list that it is in, if there is one. -/
theorem SameWaits.takeWait (h : SameWaits fifo rwlocks locks) (hlock : locks (some p) = some lock) :
    ∃ rwlocks', Refr.takeWait (some p) lock rwlocks = some rwlocks' ∧
      (∀ i, (rwlocks' i).owners = (rwlocks i).owners) ∧
      SameWaits (without fifo p) rwlocks'
        (Function.update locks (some p) (some { lock with order := none })) := by
  cases horder : lock.order with
  | none =>
      have hsame : { lock with order := none } = lock := by rw [← horder]
      refine ⟨rwlocks, ?_, fun i => rfl, ?_⟩
      · unfold Refr.takeWait
        rw [horder]
      · rwa [hsame, h.without_of_none hlock horder, ← hlock, Function.update_eq_self]
  | some order =>
      refine ⟨_, ?_, fun i => ?_, h.remove hlock horder⟩
      · unfold Refr.takeWait
        rw [horder]
        simp only [Refr.removeWait_eq (h.waits _ _ _ hlock horder), Option.map_some]
      · exact Refr.field_update Refr.RwLock.owners (by rfl) i

/-- The second half of `resume`: `p` goes on to its first conflict. -/
theorem Mirrors.advance
    (hlocks : SameLocks s (Function.update locks (some p) (some { lock with order := none })))
    (howners : SameOwners extra s rwlocks)
    (hwaits : SameWaits fifo rwlocks
      (Function.update locks (some p) (some { lock with order := none })))
    (hs : s.Sound True) (hfirst : Picks first) (hl : s.locks p = some l) (hlt : l.pos < l.stop)
    (hextra : ∀ owner i, extra owner i → i < l.pos)
    (hother : ∀ q, q ≠ p → s'.locks q = s.locks q) (hl' : s'.locks p = some l')
    (hrequest : l'.request = l.request)
    (hpos : l'.pos = (s.firstConflict p ⟨l.pos, l.stop⟩).getD l.stop) :
    ∃ r', Refr.RwLockSet.advance first ⟨rwlocks, locks⟩ (some p) lock =
        ((s.firstConflict p ⟨l.pos, l.stop⟩).isNone, r') ∧
      Mirrors extra s' (standsAt fifo p lock.priority (s.firstConflict p ⟨l.pos, l.stop⟩)) r' := by
  obtain ⟨requested, write, pos, priority, order⟩ := lock
  obtain ⟨hrange, hwrite, hlockpos⟩ := hlocks.of_update hl
  obtain rfl : requested = l.request := hrange
  obtain rfl : write = p.kind.isWrite := hwrite
  obtain rfl : pos = l.pos := hlockpos
  have hlt : (⟨l.pos, l.stop⟩ : Range ℕ).start < (⟨l.pos, l.stop⟩ : Range ℕ).stop := hlt
  obtain ⟨e, hle, hend, hacquire⟩ := howners.acquire (p := p) hs hfirst hlt hextra (some p)
  have hpos : l'.pos = e := by
    rw [hpos]
    rcases hend with ⟨hconflict, -⟩ | ⟨hconflict, he⟩
    · rw [hconflict, Option.getD_some]
    · rw [hconflict, Option.getD_none, he]
  set rwlocks' := Refr.occupy (some p, p.kind.isWrite) l.pos e rwlocks with hrwlocks'
  have howners' : SameOwners extra s' rwlocks' :=
    howners.occupy hl (hs.wellFormed p l hl).start_le_pos hle hother hl' hrequest hpos
  have hlocks' : ∀ order, SameLocks s'
      (Function.update locks (some p) (some ⟨l.request, p.kind.isWrite, e, priority, order⟩)) := by
    intro order
    have hstands : StandsFor ⟨l.request, p.kind.isWrite, e, priority, order⟩ p l' :=
      ⟨hrequest.symm, rfl, hpos.symm⟩
    have hupdate := hlocks.update hother hl' hstands
    rwa [Function.update_idem] at hupdate
  have hwaits' : SameWaits fifo rwlocks'
      (Function.update locks (some p) (some ⟨l.request, p.kind.isWrite, e, priority, none⟩)) := by
    refine hwaits.congr (fun i => Refr.occupy_waits) (fun i => Refr.occupy_nextOrder.ge) ?_
    intro id lock' horder
    by_cases hid : id = some p
    · rw [hid, Function.update_self, Function.update_self]
      refine iff_of_false ?_ ?_
      · rintro ⟨⟩
        exact horder rfl
      · rintro ⟨⟩
        exact horder rfl
    · rw [Function.update_of_ne hid, Function.update_of_ne hid]
  have hacquire : Refr.acquire first (some p) p.kind.isWrite (l.request.stop - l.pos)
    l.pos rwlocks =
      (e, rwlocks') := hacquire
  unfold Refr.RwLockSet.advance
  simp only [hacquire]
  rcases hend with ⟨hconflict, hlt'⟩ | ⟨hconflict, he⟩
  · have hlt' : e < l.request.stop := hlt'
    rw [if_pos hlt', hconflict]
    refine ⟨_, Prod.ext_iff.mpr ⟨?_, rfl⟩, hlocks' _, ?_, hwaits'.insert rfl⟩
    · simpa using hlt'.ne
    · exact howners'.congr (Refr.field_update Refr.RwLock.owners rfl)
  · have he : e = l.request.stop := he
    rw [if_neg he.not_lt, hconflict]
    exact ⟨_, Prod.ext_iff.mpr ⟨by simpa using he, rfl⟩, hlocks' none, howners', hwaits'⟩

/-- A waiter is tried again: it leaves its list, and perhaps stands at the end of one. -/
theorem Mirrors.resume {x : LockPtr × Pending ℕ Priority InProgress} (h : Mirrors extra s fifo r)
    (hs : s.Sound True) (hfirst : Picks first) (hx : x ∈ s.queue)
    (hfifo : x.1 ∈ fifo x.2.range.start x.2.priority)
    (hextra : ∀ owner i, extra owner i → i < x.2.range.start) :
    ∃ r', r.resume first (some x.1) = some ((s.firstConflict x.1 x.2.range).isNone, r') ∧
      Mirrors extra (s.resume x)
        (standsAt (without fifo x.1) x.1 x.2.priority (s.firstConflict x.1 x.2.range)) r' := by
  obtain ⟨l, hl, hrange, hwf, hpos⟩ := hs.exists_lock hx
  have hlt : l.pos < l.stop := hpos (hwf.nonempty (Or.inl trivial))
  obtain ⟨lock, hlock, -⟩ := h.locks.lock_some x.1 l hl
  have hpriority : lock.priority = x.2.priority := by
    have hmem : some x.1 ∈ (r.rwlocks x.2.range.start).waiters x.2.priority := by
      rw [h.waits.waiters]
      exact List.mem_map_of_mem hfifo
    obtain ⟨w, hw, hid, hpriority⟩ := Refr.RwLock.mem_waiters.mp hmem
    obtain ⟨lock', hlock', -, -, hpriority', -⟩ := h.waits.listed _ w hw
    rw [hid, hlock] at hlock'
    rw [Option.some.inj hlock', hpriority', hpriority]
  obtain ⟨rwlocks', htake, howners, hwaits⟩ := h.waits.takeWait hlock
  have hlocks : SameLocks s
      (Function.update r.locks (some x.1) (some { lock with order := none })) := by
    obtain ⟨lock', hlock', hstands⟩ := h.locks.lock_some x.1 l hl
    obtain rfl := Option.some.inj (hlock.symm.trans hlock')
    exact h.locks.update (fun q _ => rfl) hl ⟨hstands.range, hstands.write, hstands.pos⟩
  have hprogress : ∃ l', (s.resume x).locks x.1 = some l' ∧ l'.request = l.request ∧
      l'.pos = (s.firstConflict x.1 ⟨l.pos, l.stop⟩).getD l.stop := by
    have hldeq : (s.dequeue x.1).locks x.1 = some l := hl
    rcases hs.resume_cases hx hl with ⟨hconflict, heq⟩ | ⟨i, hconflict, -, -, heq⟩ |
      ⟨hconflict, heq⟩
    · rw [heq, hconflict]
      exact ⟨l, hl, rfl, rfl⟩
    · rw [heq, hconflict, Table.enqueue_locks, Table.setHeld_locks _ _ _ _ hldeq, if_pos rfl]
      exact ⟨_, rfl, rfl, rfl⟩
    · rw [heq, hconflict, Table.setHeld_locks _ _ _ _ hldeq, if_pos rfl]
      exact ⟨_, rfl, rfl, rfl⟩
  obtain ⟨l', hl', hrequest, hpos'⟩ := hprogress
  obtain ⟨r', hadvance, hmirrors⟩ := Mirrors.advance hlocks (h.owners.congr howners)
    hwaits hs hfirst hl
    hlt (fun owner i howner => by simpa [hrange] using hextra owner i howner)
    (fun q hq => Table.resume_locks_of_ne hq) hl' hrequest hpos'
  rw [← hrange, hpriority] at hmirrors
  rw [← hrange] at hadvance
  refine ⟨r', ?_, hmirrors⟩
  unfold Refr.RwLockSet.resume
  simp only [hlock, Option.bind_some, htake, Option.map_some, hadvance]

/-! ## The waiters of an index -/

/-- While the waiters of `j` are tried, those to come stand in front of those that have stayed. -/
def turning (s : Table ℕ Priority InProgress) (j : ℕ)
    (stayed visits : List (LockPtr × Pending ℕ Priority InProgress)) : ℕ → Priority →
    List LockPtr :=
  fun i c => if i = j then classOf c visits ++ classOf c stayed else s.fifo i c

section Turning
variable {x : LockPtr × Pending ℕ Priority InProgress} {j : ℕ}
  {stayed visits : List (LockPtr × Pending ℕ Priority InProgress)}

theorem turning_self (c : Priority) :
    turning s j stayed visits j c = classOf c visits ++ classOf c stayed := if_pos rfl

theorem turning_of_ne (hi : i ≠ j) (c : Priority) :
    turning s j stayed visits i c = s.fifo i c := if_neg hi

theorem turning_nil (hvisits : s.waitersAt j = stayed) : turning s j stayed [] = s.fifo := by
  funext i c
  unfold turning
  split
  · next hi =>
      rw [hi, Table.fifo, hvisits]
      rfl
  · rfl

theorem turning_start : turning s j [] (s.waitersAt j) = s.fifo := by
  funext i c
  unfold turning
  split
  · next hi =>
      rw [hi]
      exact List.append_nil _
  · rfl

omit [LinearOrder Priority] in
theorem filter_ne_of_nodup (hnodup : ((stayed ++ x :: visits).map Prod.fst).Nodup) :
    stayed.filter (fun y => y.1 ≠ x.1) = stayed ∧
      (x :: visits).filter (fun y => y.1 ≠ x.1) = visits := by
  rw [List.map_append, List.map_cons, List.nodup_append, List.nodup_cons] at hnodup
  obtain ⟨-, ⟨hvisits, -⟩, hstayed⟩ := hnodup
  refine ⟨List.filter_eq_self.mpr fun y hy => ?_, ?_⟩
  · have hne := hstayed y.1 (List.mem_map_of_mem hy) x.1 List.mem_cons_self
    simpa using hne
  · rw [List.filter_cons_of_neg (by simp)]
    refine List.filter_eq_self.mpr fun y hy => ?_
    have hne : y.1 ≠ x.1 := fun heq => hvisits (heq ▸ List.mem_map_of_mem hy)
    simpa using hne

section Turn
variable (hs : s.Sound strict) (hvisits : s.waitersAt j = stayed ++ x :: visits)
include hs hvisits

theorem waitersAt_dequeue_of_turn : (s.dequeue x.1).waitersAt j = stayed ++ visits := by
  have hnodup := hs.wellLinked.waitersAt_nodup j
  rw [hvisits] at hnodup
  obtain ⟨hstayed, hrest⟩ := filter_ne_of_nodup hnodup
  rw [Table.waitersAt_dequeue, hvisits, List.filter_append, hstayed, hrest]

theorem without_turning : without (turning s j stayed (x :: visits)) x.1 =
    turning (s.dequeue x.1) j stayed visits := by
  have hnodup := hs.wellLinked.waitersAt_nodup j
  rw [hvisits] at hnodup
  obtain ⟨hstayed, hrest⟩ := filter_ne_of_nodup hnodup
  funext i c
  unfold without turning
  split
  · rw [List.filter_append, filter_classOf, filter_classOf, hstayed, hrest]
  · rw [Table.fifo_dequeue]

/-- The waiter `x` has had its turn.  It stays behind the others, or goes. -/
theorem turn : ∃ stayed', (s.resume x).waitersAt j = stayed' ++ visits ∧
    standsAt (without (turning s j stayed (x :: visits)) x.1) x.1 x.2.priority
      (s.firstConflict x.1 x.2.range) = turning (s.resume x) j stayed' visits := by
  have hmem : x ∈ s.waitersAt j := by
    rw [hvisits]
    simp
  obtain ⟨hx, hstart⟩ := Table.mem_waitersAt.mp hmem
  obtain ⟨l, hl, hrange, -⟩ := hs.exists_lock hx
  have hpos : l.pos = j := by rw [← hstart, hrange]
  have hdequeue := waitersAt_dequeue_of_turn hs hvisits
  rw [without_turning hs hvisits]
  rcases hs.resume_cases hx hl with ⟨hconflict, heq⟩ | ⟨i', hconflict, hlt, -, heq⟩ |
    ⟨hconflict, heq⟩
  · -- No progress: in the list of the core `x` has not moved
    refine ⟨stayed ++ [x], by rw [heq, hvisits, List.append_assoc]; rfl, ?_⟩
    rw [hrange, hconflict, heq, hpos]
    funext i c
    rw [standsAt_some]
    by_cases hi : i = j
    · rw [hi, turning_self, turning_self, classOf_append, List.append_assoc]
      congr 2
      by_cases hc : x.2.priority = c
      · simp [classOf, hc]
      · simp [classOf, hc]
    · rw [turning_of_ne hi, turning_of_ne hi, if_neg fun h => hi h.1.symm, List.append_nil,
        Table.fifo_dequeue]
      refine List.filter_eq_self.mpr fun q hq => ?_
      have hqx : q ≠ x.1 := by
        rintro rfl
        obtain ⟨y, hy, hyx, hyi, -⟩ := Table.mem_fifo.mp hq
        have hxy : y = x := by
          have hfind := hs.find_queue hy
          rw [hyx, hs.find_queue hx] at hfind
          exact (Option.some.inj hfind).symm
        rw [hxy, hstart] at hyi
        exact hi hyi.symm
      simpa using hqx
  · -- `x` moves up
    have hne : i' ≠ j := by omega
    refine ⟨stayed, ?_, ?_⟩
    · rw [heq, Table.waitersAt_enqueue_of_ne hne]
      exact hdequeue
    · rw [hrange, hconflict, heq]
      funext i c
      rw [standsAt_some]
      by_cases hi : i = j
      · rw [hi, turning_self, turning_self, if_neg fun h => hne h.1, List.append_nil]
      · rw [turning_of_ne hi, turning_of_ne hi, Table.fifo_enqueue]
        rfl
  · -- `x` is complete
    refine ⟨stayed, ?_, ?_⟩
    · rw [heq]
      exact hdequeue
    · rw [hrange, hconflict, heq]
      rfl

end Turn

/-- All waiters of an index are tried, in the same order, and the same ones are complete. -/
theorem Mirrors.resumeAll (h : Mirrors extra s (turning s j stayed visits) r) (hs : s.Sound True)
    (hfirst : Picks first) (hvisits : s.waitersAt j = stayed ++ visits)
    (hextra : ∀ owner i, extra owner i → i < j) :
    ∃ r', Refr.RwLockSet.resumeAll first (visits.map fun x => some x.1) r =
        some ((s.completed visits).map some, r') ∧
      Mirrors extra (visits.foldl Table.resume s) (visits.foldl Table.resume s).fifo r' := by
  induction visits generalizing s r stayed with
  | nil =>
      refine ⟨r, rfl, ?_⟩
      rw [turning_nil (by rw [hvisits, List.append_nil])] at h
      exact h
  | cons x visits ih =>
      have hmem : x ∈ s.waitersAt j := by
        rw [hvisits]
        simp
      obtain ⟨hx, hstart⟩ := Table.mem_waitersAt.mp hmem
      have hfifo : x.1 ∈ turning s j stayed (x :: visits) x.2.range.start x.2.priority := by
        rw [hstart, turning, if_pos rfl]
        simp [classOf]
      obtain ⟨r₁, hresume, hmirrors⟩ := h.resume hs hfirst hx hfifo (by rwa [hstart])
      obtain ⟨stayed', hvisits', hturn⟩ := turn hs hvisits
      rw [hturn] at hmirrors
      obtain ⟨r', hrest, hmirrors'⟩ := ih hmirrors (hs.resume hx) hvisits'
      refine ⟨r', ?_, hmirrors'⟩
      rw [List.map_cons, Refr.RwLockSet.resumeAll, hresume]
      simp only [Option.bind_some, hrest, Option.map_some, Table.completed]
      split <;> rfl

/-- What a turn of all waiters of an index does to the table. -/
theorem foldl_turn (hs : s.Sound strict) (hvisits : s.waitersAt j = stayed ++ visits) :
    (visits.foldl Table.resume s).Sound strict ∧
      (∀ start, (visits.foldl Table.resume s).waitersIn start j = s.waitersIn start j) ∧
      ∀ q, (visits.foldl Table.resume s).requestOf q = s.requestOf q := by
  induction visits generalizing s stayed with
  | nil => exact ⟨hs, fun _ => rfl, fun _ => rfl⟩
  | cons x visits ih =>
      have hmem : x ∈ s.waitersAt j := by
        rw [hvisits]
        simp
      obtain ⟨hx, hstart⟩ := Table.mem_waitersAt.mp hmem
      obtain ⟨stayed', hvisits', -⟩ := turn hs hvisits
      obtain ⟨hsound, hin, hrequest⟩ := ih (hs.resume hx) hvisits'
      refine ⟨hsound, fun start => ?_, fun q => ?_⟩
      · exact (hin start).trans (hs.resume_waitersIn hx start hstart.ge)
      · exact (hrequest q).trans Table.resume_requestOf

end Turning

/-! ## The release of virtual locks -/

/-- The wait list of an index is that of the core. -/
theorem SameWaits.waits_eq (h : SameWaits s.fifo rwlocks locks) (hs : s.WellLinked) (j : ℕ) :
    (rwlocks j).waits.map (fun w => (w.id, w.priority)) =
      (s.waitersAt j).map fun x => (some x.1, x.2.priority) := by
  refine eq_of_classes Prod.snd ?_ ?_ fun c => ?_
  · rw [List.pairwise_map]
    refine (h.ordered j).sorted.imp fun {v w} hbefore => ?_
    rcases hbefore with hlt | ⟨heq, -⟩
    · exact hlt.le
    · exact heq.ge
  · rw [List.pairwise_map]
    exact hs.waitersAt_sorted j
  · have hwaits : ((rwlocks j).waits.map fun w => (w.id, w.priority)).filter
        (fun x => x.2 = c) = ((rwlocks j).waiters c).map fun id => (id, c) := by
      unfold Refr.RwLock.waiters
      rw [List.filter_map, List.map_map]
      refine List.map_congr_left fun w hw => ?_
      have hc : w.priority = c := by simpa using (List.mem_filter.mp hw).2
      simp [hc]
    have hvisits : ((s.waitersAt j).map fun x => (some x.1, x.2.priority)).filter
        (fun x => x.2 = c) = ((s.fifo j c).map some).map fun id => (id, c) := by
      unfold Table.fifo classOf
      rw [List.filter_map, List.map_map, List.map_map]
      refine List.map_congr_left fun x hx => ?_
      have hc : x.2.priority = c := by simpa using (List.mem_filter.mp hx).2
      simp [hc]
    rw [hwaits, hvisits, h.waiters]

theorem SameWaits.ids (h : SameWaits s.fifo rwlocks locks) (hs : s.WellLinked) (j : ℕ) :
    (rwlocks j).waits.map Refr.Wait.id = (s.waitersAt j).map fun x => some x.1 := by
  have hfst := congrArg (List.map Prod.fst) (h.waits_eq hs j)
  rwa [List.map_map, List.map_map] at hfst

omit [LinearOrder Priority] in
/-- `owner` gives back the virtual lock `j`. -/
theorem SameOwners.giveBack {owner : LockId × Bool} {start j : ℕ}
    (h : SameOwners (owned owner start (j + 1)) s rwlocks)
    (howner : ∀ q l, s.locks q = some l → owner ≠ (some q, q.kind.isWrite)) :
    SameOwners (owned owner start j) s (Function.update rwlocks j { rwlocks j with
      owners := (rwlocks j).owners.filter fun other => other ≠ owner }) := by
  intro i other
  by_cases hi : i = j
  · rw [hi, Function.update_self, List.mem_filter, h j other]
    simp only [owned, decide_eq_true_eq]
    constructor
    · intro hmem
      rcases hmem with ⟨hmem | ⟨heq, -⟩, hne⟩
      · exact Or.inl hmem
      · exact absurd heq hne
    · intro hmem
      rcases hmem with ⟨q, l, rfl, hl, hholds⟩ | ⟨-, -, hlt⟩
      · exact ⟨Or.inl ⟨q, l, rfl, hl, hholds⟩, fun heq => howner q l hl heq.symm⟩
      · exact absurd hlt (lt_irrefl j)
  · rw [Function.update_of_ne hi, h i other]
    unfold owned
    have hlt : i < j + 1 ↔ i < j := by omega
    rw [hlt]

/-- Those that wait in a range, from the last index on. -/
theorem waitersIn_succ (hs : s.WellLinked) {start j : ℕ} (hle : start ≤ j) :
    s.waitersIn start (j + 1) = s.waitersAt j ++ s.waitersIn start j := by
  have hsorted : (s.queue.filter fun x =>
      start ≤ x.2.range.start ∧ x.2.range.start < j + 1).Pairwise
      fun x y => x.2.range.start ≤ y.2.range.start :=
    (hs.sorted.imp pendingLe.start_le).filter _
  have hsplit := sorted_eq_filter (Nat.le_succ j) hsorted
  have hlow : ∀ x : LockPtr × Pending ℕ Priority InProgress,
      x.2.range.start < j ∧ start ≤ x.2.range.start ∧ x.2.range.start < j + 1 ↔
        start ≤ x.2.range.start ∧ x.2.range.start < j := fun x => by omega
  have hmid : ∀ x : LockPtr × Pending ℕ Priority InProgress,
      (j ≤ x.2.range.start ∧ x.2.range.start < j.succ) ∧ start ≤ x.2.range.start ∧
        x.2.range.start < j + 1 ↔ x.2.range.start = j := fun x => by omega
  have hhigh : ∀ x : LockPtr × Pending ℕ Priority InProgress,
      ¬ (j.succ ≤ x.2.range.start ∧ start ≤ x.2.range.start ∧ x.2.range.start < j + 1) :=
    fun x => by omega
  unfold Table.waitersIn Table.waitersAt
  rw [← List.reverse_append, hsplit]
  simp only [List.filter_filter, ← Bool.decide_and, hlow, hmid, hhigh]
  simp

/-- The virtual locks of `owner` are given back from the last one on, and the waiters of each are
tried. -/
theorem Mirrors.release {id : LockId} {write : Bool} {start count : ℕ}
    (h : Mirrors (owned (id, write) start (start + count)) s s.fifo r) (hs : s.Sound True)
    (hfirst : Picks first) (hid : ∀ q l, s.locks q = some l → id ≠ some q) :
    ∃ r', Refr.RwLockSet.release first id write count (start + count) r =
        some ((s.completed (s.waitersIn start (start + count))).map some, r') ∧
      InStep ((s.waitersIn start (start + count)).foldl Table.resume s) r' := by
  induction count generalizing s r with
  | zero =>
      have hnil : s.waitersIn start (start + 0) = [] := by
        unfold Table.waitersIn
        rw [List.reverse_eq_nil_iff, List.filter_eq_nil_iff]
        intro x _
        simp
      have hnobody : owned (id, write) start (start + 0) = nobody := by
        funext owner i
        simp only [owned, nobody, eq_iff_iff, iff_false]
        omega
      rw [hnil]
      rw [hnobody] at h
      exact ⟨r, rfl, h⟩
  | succ count ih =>
      set j := start + count with hj
      have hpos : start + (count + 1) - 1 = j := by omega
      have hle : start ≤ j := by omega
      -- The waiters of `j`
      have hmirrors : Mirrors (owned (id, write) start j) s (turning s j [] (s.waitersAt j))
          ⟨Function.update r.rwlocks j { r.rwlocks j with
            owners := (r.rwlocks j).owners.filter fun other => other ≠ (id, write) }, r.locks⟩ := by
        rw [turning_start]
        refine ⟨h.locks, h.owners.giveBack fun q l hl heq => ?_, ?_⟩
        · exact hid q l hl (congrArg Prod.fst heq)
        · refine h.waits.congr (fun i => ?_) (fun i => ?_) fun _ _ _ => Iff.rfl
          · exact Refr.field_update Refr.RwLock.waits (by rfl) i
          · exact (Refr.field_update Refr.RwLock.nextOrder (by rfl) i).ge
      obtain ⟨r₁, hresumed, hmirrors₁⟩ := hmirrors.resumeAll hs hfirst rfl fun owner i howner =>
        howner.2.2
      obtain ⟨hs₁, hin, hrequest⟩ := foldl_turn hs (List.nil_append (s.waitersAt j)).symm
      set s₁ := (s.waitersAt j).foldl Table.resume s with hs₁def
      -- The waiters in front of it
      have hid₁ : ∀ q l, s₁.locks q = some l → id ≠ some q := by
        intro q l hl
        have hq := hrequest q
        rw [Table.requestOf, hl] at hq
        obtain ⟨l', hl', -⟩ := Option.map_eq_some_iff.mp hq.symm
        exact hid q l' hl'
      obtain ⟨r', hreleased, hinstep⟩ := ih hmirrors₁ hs₁ hid₁
      have hsplit : s.waitersIn start (start + (count + 1)) =
        s.waitersAt j ++ s.waitersIn start j :=
        waitersIn_succ hs.wellLinked hle
      rw [hin start] at hreleased hinstep
      refine ⟨r', ?_, ?_⟩
      · rw [← h.waits.ids hs.wellLinked j] at hresumed
        rw [Refr.RwLockSet.release, hpos, hsplit, Table.completed_append, List.map_append, ← hs₁def]
        simp only [hresumed, Option.bind_some, hreleased, Option.map_some]
      · rw [hsplit, List.foldl_append]
        exact hinstep

end Relation

end Interlock.Core
