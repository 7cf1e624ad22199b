import Interlock.Core.Table

/-!
# The array of virtual locks

The reference implementation of the tests: one readers-writer lock for each index.  A lock acquires
the virtual locks of its range in ascending order and waits at the first one that it cannot have; a
release gives them back in descending order, and after each of them tries all locks that wait there
again.

`BTreeSet` is a sorted list.  The order in which a `HashSet` shows its elements is not specified:
`first` picks the one that comes first.
-/

namespace Interlock.Core.Refr

variable {Id Priority : Type} [LinearOrder Priority]

/-! ## Data -/

structure Wait (Id Priority : Type) where
  id : Id
  write : Bool
  priority : Priority
  /-- Enforce FIFO ordering. -/
  order : ℕ

/-- `(-priority, order)` -/
def Wait.cmp (w o : Wait Id Priority) : Ordering :=
  (compare o.priority w.priority).then (compare w.order o.order)

structure RwLock (Id Priority : Type) where
  owners : List (Id × Bool)
  waits : List (Wait Id Priority)
  nextOrder : ℕ

structure Lock (Priority : Type) where
  range : Range ℕ
  write : Bool
  pos : ℕ
  priority : Priority
  /-- The last copy of `Wait.order`. -/
  order : Option ℕ

structure RwLockSet (Id Priority : Type) where
  rwlocks : ℕ → RwLock Id Priority
  locks : Id → Option (Lock Priority)

def RwLock.new : RwLock Id Priority := ⟨[], [], 0⟩

def RwLockSet.new : RwLockSet Id Priority := ⟨fun _ => .new, fun _ => none⟩

/-! ## Wait lists -/

/-- `waits.insert(w)`: if there is an equal element, it stays. -/
def insertWait (w : Wait Id Priority) (waits : List (Wait Id Priority)) : List (Wait Id Priority) :=
  if waits.any fun v => v.cmp w = .eq then waits
  else waits.takeWhile (fun v => v.cmp w = .lt) ++ w :: waits.dropWhile fun v => v.cmp w = .lt

/-- `assert!(waits.remove(w))` -/
def removeWait (w : Wait Id Priority) (waits : List (Wait Id Priority)) :
    Option (List (Wait Id Priority)) :=
  if waits.any fun v => v.cmp w = .eq then some (waits.filter fun v => v.cmp w ≠ .eq) else none

section Waits
variable {v w u : Wait Id Priority} {waits : List (Wait Id Priority)} {c : Priority}

/-- `v` comes before `w`. -/
def Wait.Before (v w : Wait Id Priority) : Prop :=
  w.priority < v.priority ∨ (v.priority = w.priority ∧ v.order < w.order)

theorem cmp_eq_lt : v.cmp w = .lt ↔ v.Before w := by
  unfold Wait.cmp Wait.Before
  rw [Ordering.then_eq_lt, compare_lt_iff_lt, compare_eq_iff_eq, compare_lt_iff_lt,
    eq_comm (a := w.priority)]

theorem cmp_eq_eq : v.cmp w = .eq ↔ v.priority = w.priority ∧ v.order = w.order := by
  unfold Wait.cmp
  rw [Ordering.then_eq_eq, compare_eq_iff_eq, compare_eq_iff_eq, eq_comm (a := w.priority)]

theorem Wait.Before.trans (h : u.Before v) (h' : v.Before w) : u.Before w := by
  unfold Wait.Before at *
  rcases h with h | ⟨h, horder⟩
  · rcases h' with h' | ⟨h', -⟩
    · exact Or.inl (h'.trans h)
    · exact Or.inl (h' ▸ h)
  · rcases h' with h' | ⟨h', horder'⟩
    · exact Or.inl (h ▸ h')
    · exact Or.inr ⟨h.trans h', horder.trans horder'⟩

theorem Wait.Before.cmp_ne (h : v.Before w) : v.cmp w ≠ .eq := by
  intro heq
  rw [cmp_eq_lt.mpr h] at heq
  cases heq

/-- Two waits that are not equal come one before the other. -/
theorem Wait.before_of_not (h : ¬ v.Before w) (hne : v.cmp w ≠ .eq) : w.Before v := by
  rw [ne_eq, cmp_eq_eq] at hne
  unfold Wait.Before at *
  rcases lt_trichotomy v.priority w.priority with hlt | heq | hgt
  · exact Or.inl hlt
  · refine Or.inr ⟨heq.symm, ?_⟩
    have hlt : ¬ v.order < w.order := fun hlt => h (Or.inr ⟨heq, hlt⟩)
    have hne : v.order ≠ w.order := fun horder => hne ⟨heq, horder⟩
    omega
  · exact absurd (Or.inl hgt) h

/-- The waits of a virtual lock are in order, and have got their numbers from it. -/
structure RwLock.WellOrdered (rwl : RwLock Id Priority) : Prop where
  sorted : rwl.waits.Pairwise Wait.Before
  order_lt : ∀ w ∈ rwl.waits, w.order < rwl.nextOrder

/-- Those that wait with the priority `c`, in order. -/
def RwLock.waiters (rwl : RwLock Id Priority) (c : Priority) : List Id :=
  (rwl.waits.filter fun w => w.priority = c).map Wait.id

theorem RwLock.mem_waiters {rwl : RwLock Id Priority} {id : Id} :
    id ∈ rwl.waiters c ↔ ∃ w ∈ rwl.waits, w.id = id ∧ w.priority = c := by
  simp only [waiters, List.mem_map, List.mem_filter, decide_eq_true_eq]
  constructor
  · rintro ⟨w, ⟨hw, hc⟩, hid⟩
    exact ⟨w, hw, hid, hc⟩
  · rintro ⟨w, hw, hid, hc⟩
    exact ⟨w, ⟨hw, hc⟩, hid⟩

theorem mem_insertWait (hne : ∀ v ∈ waits, v.cmp w ≠ .eq) :
    v ∈ insertWait w waits ↔ v = w ∨ v ∈ waits := by
  have hany : ¬ waits.any (fun v => v.cmp w = .eq) = true := by simpa using hne
  have hsplit : v ∈ waits ↔ v ∈ waits.takeWhile (fun v => v.cmp w = .lt) ∨
      v ∈ waits.dropWhile fun v => v.cmp w = .lt := by
    rw [← List.mem_append, List.takeWhile_append_dropWhile]
  rw [insertWait, if_neg hany, List.mem_append, List.mem_cons, hsplit]
  tauto

/-- The new wait stands behind those that come before it. -/
theorem insertWait_sorted (hsorted : waits.Pairwise Wait.Before)
    (hne : ∀ v ∈ waits, v.cmp w ≠ .eq) : (insertWait w waits).Pairwise Wait.Before := by
  have hany : ¬ waits.any (fun v => v.cmp w = .eq) = true := by simpa using hne
  rw [insertWait, if_neg hany]
  clear hany
  induction waits with
  | nil => simp
  | cons v waits ih =>
      obtain ⟨hv, hsorted⟩ := List.pairwise_cons.mp hsorted
      have hrest : ∀ u ∈ waits, u.cmp w ≠ .eq := fun u hu => hne u (List.mem_cons_of_mem _ hu)
      by_cases hlt : v.cmp w = .lt
      · rw [List.takeWhile_cons_of_pos (by simpa using hlt),
          List.dropWhile_cons_of_pos (by simpa using hlt), List.cons_append, List.pairwise_cons]
        refine ⟨fun u hu => ?_, ih hsorted hrest⟩
        rw [List.mem_append, List.mem_cons] at hu
        rcases hu with hu | rfl | hu
        · exact hv u ((List.takeWhile_sublist _).subset hu)
        · exact cmp_eq_lt.mp hlt
        · exact hv u ((List.dropWhile_sublist _).subset hu)
      · rw [List.takeWhile_cons_of_neg (by simpa using hlt),
          List.dropWhile_cons_of_neg (by simpa using hlt), List.nil_append, List.pairwise_cons]
        have hwv : w.Before v := Wait.before_of_not (fun h => hlt (cmp_eq_lt.mpr h))
          (hne v List.mem_cons_self)
        refine ⟨fun u hu => ?_, List.pairwise_cons.mpr ⟨hv, hsorted⟩⟩
        rcases List.mem_cons.mp hu with rfl | hu
        · exact hwv
        · exact hwv.trans (hv u hu)

/-- A wait with a new number goes behind all others of its priority. -/
theorem filter_insertWait (hsorted : waits.Pairwise Wait.Before)
    (horder : ∀ v ∈ waits, v.order < w.order) :
    (insertWait w waits).filter (fun v => v.priority = c) =
      waits.filter (fun v => v.priority = c) ++ if w.priority = c then [w] else [] := by
  have hany : ¬ waits.any (fun v => v.cmp w = .eq) = true := by
    simp only [List.any_eq_true, decide_eq_true_eq, cmp_eq_eq, not_exists, not_and]
    exact fun v hv _ heq => absurd (horder v hv) (by omega)
  rw [insertWait, if_neg hany]
  clear hany
  induction waits with
  | nil => by_cases hc : w.priority = c <;> simp [hc]
  | cons v waits ih =>
      obtain ⟨hv, hsorted⟩ := List.pairwise_cons.mp hsorted
      have hrest : ∀ u ∈ waits, u.order < w.order := fun u hu =>
        horder u (List.mem_cons_of_mem _ hu)
      by_cases hlt : v.cmp w = .lt
      · rw [List.takeWhile_cons_of_pos (by simpa using hlt),
          List.dropWhile_cons_of_pos (by simpa using hlt), List.cons_append, List.filter_cons,
          List.filter_cons, ih hsorted hrest]
        split <;> rfl
      · rw [List.takeWhile_cons_of_neg (by simpa using hlt),
          List.dropWhile_cons_of_neg (by simpa using hlt), List.nil_append]
        -- From `v` on the priorities are lower
        have hlow : ∀ u ∈ v :: waits, u.priority < w.priority := by
          have hvw : v.priority < w.priority := by
            rw [cmp_eq_lt, Wait.Before] at hlt
            rcases lt_trichotomy v.priority w.priority with h | h | h
            · exact h
            · exact absurd (Or.inr ⟨h, horder v List.mem_cons_self⟩) hlt
            · exact absurd (Or.inl h) hlt
          intro u hu
          rcases List.mem_cons.mp hu with rfl | hu
          · exact hvw
          · rcases hv u hu with h | ⟨h, -⟩
            · exact h.trans hvw
            · exact h ▸ hvw
        by_cases hc : w.priority = c
        · have hnone : (v :: waits).filter (fun u => u.priority = c) = [] :=
            List.filter_eq_nil_iff.mpr fun u hu => by simpa [← hc] using (hlow u hu).ne
          rw [List.filter_cons_of_pos (by simpa using hc), hnone, if_pos hc, List.nil_append]
        · rw [List.filter_cons_of_neg (by simpa using hc), if_neg hc, List.append_nil]

theorem removeWait_eq (hw : w ∈ waits) :
    removeWait w waits = some (waits.filter fun v => v.cmp w ≠ .eq) := by
  have hany : waits.any (fun v => v.cmp w = .eq) = true :=
    List.any_eq_true.mpr ⟨w, hw, by simp [cmp_eq_eq]⟩
  rw [removeWait, if_pos hany]

/-- What has just been inserted can be removed again. -/
theorem removeWait_insertWait (hne : ∀ v ∈ waits, v.cmp w ≠ .eq) :
    removeWait w (insertWait w waits) = some waits := by
  have hany : ¬ waits.any (fun v => v.cmp w = .eq) = true := by simpa using hne
  have hkeep : ∀ xs : List (Wait Id Priority), xs ⊆ waits →
      xs.filter (fun v => v.cmp w ≠ .eq) = xs := fun xs hxs =>
    List.filter_eq_self.mpr fun v hv => by simpa using hne v (hxs hv)
  have hself : w.cmp w = .eq := cmp_eq_eq.mpr ⟨rfl, rfl⟩
  rw [removeWait_eq ((mem_insertWait hne).mpr (Or.inl rfl)), insertWait, if_neg hany,
    List.filter_append, List.filter_cons_of_neg (by simp [hself]),
    hkeep _ (List.takeWhile_sublist _).subset, hkeep _ (List.dropWhile_sublist _).subset,
    List.takeWhile_append_dropWhile]

namespace RwLock.WellOrdered
variable {rwl : RwLock Id Priority}

theorem cmp_ne (h : rwl.WellOrdered) (hw : w.order = rwl.nextOrder) :
    ∀ v ∈ rwl.waits, v.cmp w ≠ .eq := by
  intro v hv heq
  have hlt := h.order_lt v hv
  rw [cmp_eq_eq] at heq
  omega

theorem insert (h : rwl.WellOrdered) (hw : w.order = rwl.nextOrder) :
    RwLock.WellOrdered
      { rwl with nextOrder := rwl.nextOrder + 1, waits := insertWait w rwl.waits } where
  sorted := insertWait_sorted h.sorted (h.cmp_ne hw)
  order_lt v hv := by
    rcases (mem_insertWait (h.cmp_ne hw)).mp hv with rfl | hv
    · exact hw ▸ Nat.lt_succ_self _
    · exact (h.order_lt v hv).trans (Nat.lt_succ_self _)

theorem remove (h : rwl.WellOrdered) (w : Wait Id Priority) :
    RwLock.WellOrdered { rwl with waits := rwl.waits.filter fun v => v.cmp w ≠ .eq } where
  sorted := h.sorted.filter _
  order_lt v hv := h.order_lt v (List.mem_of_mem_filter hv)

theorem waiters_insert (h : rwl.WellOrdered) (hw : w.order = rwl.nextOrder) (c : Priority) :
    RwLock.waiters { rwl with nextOrder := rwl.nextOrder + 1, waits := insertWait w rwl.waits } c =
      rwl.waiters c ++ if w.priority = c then [w.id] else [] := by
  unfold RwLock.waiters
  rw [filter_insertWait h.sorted fun v hv => hw ▸ h.order_lt v hv, List.map_append]
  split <;> rfl

theorem eq_of_cmp (h : rwl.WellOrdered) (hv : v ∈ rwl.waits) (hw : w ∈ rwl.waits)
    (heq : v.cmp w = .eq) : v = w := by
  by_contra hne
  have hsymm : w.cmp v = .eq := by
    rw [cmp_eq_eq] at heq ⊢
    exact ⟨heq.1.symm, heq.2.symm⟩
  obtain ⟨i, hi, rfl⟩ := List.getElem_of_mem hv
  obtain ⟨j, hj, rfl⟩ := List.getElem_of_mem hw
  have hsorted := List.pairwise_iff_getElem.mp h.sorted
  rcases lt_trichotomy i j with hlt | rfl | hgt
  · exact (hsorted i j hi hj hlt).cmp_ne heq
  · exact hne rfl
  · exact (hsorted j i hj hi hgt).cmp_ne hsymm

end RwLock.WellOrdered

end Waits

/-! ## Operations -/

section Operations
variable [DecidableEq Id] (first : List (Id × Bool) → Option (Id × Bool))

/-- `owners.insert(owner)` -/
def insertOwner (owner : Id × Bool) (owners : List (Id × Bool)) : List (Id × Bool) :=
  if owner ∈ owners then owners else owner :: owners

/-- Is the virtual lock owned by somebody who is in the way? -/
def RwLock.blocked (rwl : RwLock Id Priority) (write : Bool) : Bool :=
  if write then !rwl.owners.isEmpty else (first rwl.owners).elim false (·.2)

/-- The loop of `resume`: acquire at most `count` virtual locks from `pos` on. -/
def acquire (id : Id) (write : Bool) :
    ℕ → ℕ → (ℕ → RwLock Id Priority) → ℕ × (ℕ → RwLock Id Priority)
  | 0, pos, rwlocks => (pos, rwlocks)
  | count + 1, pos, rwlocks =>
      let rwl := rwlocks pos
      if rwl.blocked first write then (pos, rwlocks)
      else acquire id write count (pos + 1) (Function.update rwlocks pos
        { rwl with owners := insertOwner (id, write) rwl.owners })

/-- Take the lock out of the set of those that wait, if it is there. -/
def takeWait (id : Id) (lock : Lock Priority) (rwlocks : ℕ → RwLock Id Priority) :
    Option (ℕ → RwLock Id Priority) :=
  match lock.order with
  | some order =>
      let rwl := rwlocks lock.pos
      (removeWait ⟨id, lock.write, lock.priority, order⟩ rwl.waits).map fun waits =>
        Function.update rwlocks lock.pos { rwl with waits }
  | none => some rwlocks

/-- The virtual locks after `owner` has acquired those of `start..stop`. -/
def occupy (owner : Id × Bool) (start stop : ℕ) (rwlocks : ℕ → RwLock Id Priority) :
    ℕ → RwLock Id Priority := fun i =>
  if start ≤ i ∧ i < stop then
    { rwlocks i with owners := insertOwner owner (rwlocks i).owners }
  else rwlocks i

section Occupy
variable {owner owner' : Id × Bool} {start stop i : ℕ} {rwlocks : ℕ → RwLock Id Priority}

omit [LinearOrder Priority] in
theorem mem_insertOwner {owners : List (Id × Bool)} :
    owner' ∈ insertOwner owner owners ↔ owner' = owner ∨ owner' ∈ owners := by
  unfold insertOwner
  split
  · next hmem =>
      constructor
      · exact Or.inr
      · intro h
        rcases h with rfl | h
        · exact hmem
        · exact h
  · exact List.mem_cons

omit [LinearOrder Priority] in
theorem mem_occupy_owners : owner' ∈ (occupy owner start stop rwlocks i).owners ↔
    (owner' = owner ∧ start ≤ i ∧ i < stop) ∨ owner' ∈ (rwlocks i).owners := by
  unfold occupy
  split
  · next hi => rw [mem_insertOwner, and_iff_left hi]
  · next hi => rw [or_iff_right fun h => hi h.2]

omit [LinearOrder Priority] [DecidableEq Id] in
/-- A field in which the new virtual lock is like the old one. -/
theorem field_update {α : Type} (f : RwLock Id Priority → α) {rwl : RwLock Id Priority} {e : ℕ}
    (h : f rwl = f (rwlocks e)) (i : ℕ) : f (Function.update rwlocks e rwl i) = f (rwlocks i) := by
  by_cases hi : i = e
  · rw [hi, Function.update_self, h]
  · rw [Function.update_of_ne hi]

omit [LinearOrder Priority] in
@[simp] theorem occupy_waits :
    (occupy owner start stop rwlocks i).waits = (rwlocks i).waits := by
  unfold occupy
  split <;> rfl

omit [LinearOrder Priority] in
@[simp] theorem occupy_nextOrder :
    (occupy owner start stop rwlocks i).nextOrder = (rwlocks i).nextOrder := by
  unfold occupy
  split <;> rfl

end Occupy

omit [LinearOrder Priority] in
theorem occupy_of_le (owner : Id × Bool) {start stop : ℕ} (hle : stop ≤ start)
    (rwlocks : ℕ → RwLock Id Priority) : occupy owner start stop rwlocks = rwlocks := by
  funext i
  exact if_neg fun h => by omega

omit [LinearOrder Priority] in
/-- The loop ends at the first virtual lock that is in the way. -/
theorem acquire_eq (id : Id) (write : Bool) (count pos : ℕ) (rwlocks : ℕ → RwLock Id Priority) :
    ∃ stop, pos ≤ stop ∧ stop ≤ pos + count ∧
      (∀ i, pos ≤ i → i < stop → (rwlocks i).blocked first write = false) ∧
      (stop < pos + count → (rwlocks stop).blocked first write = true) ∧
      acquire first id write count pos rwlocks = (stop, occupy (id, write) pos stop rwlocks) := by
  induction count generalizing pos rwlocks with
  | zero =>
      refine ⟨pos, le_rfl, le_rfl, fun i hi hlt => ?_, fun hlt => ?_, ?_⟩
      · omega
      · omega
      · rw [acquire, occupy_of_le _ le_rfl]
  | succ count ih =>
      by_cases hblocked : (rwlocks pos).blocked first write
      · refine ⟨pos, le_rfl, by omega, fun i hi hlt => by omega, fun _ => hblocked, ?_⟩
        rw [acquire, if_pos hblocked, occupy_of_le _ le_rfl]
      · set rwlocks' := Function.update rwlocks pos
          { rwlocks pos with owners := insertOwner (id, write) (rwlocks pos).owners } with hrwlocks'
        obtain ⟨stop, hle, hstop, hfree, hend, heq⟩ := ih (pos + 1) rwlocks'
        have hbehind : ∀ i, pos < i → rwlocks' i = rwlocks i := fun i hi =>
          Function.update_of_ne hi.ne' _ _
        refine ⟨stop, by omega, by omega, fun i hi hlt => ?_, fun hlt => ?_, ?_⟩
        · rcases Nat.eq_or_lt_of_le hi with rfl | hi
          · simpa using hblocked
          · rw [← hbehind i hi]
            exact hfree i hi hlt
        · rw [← hbehind stop (by omega)]
          exact hend (by omega)
        · rw [acquire, if_neg hblocked, heq]
          congr 1
          funext i
          unfold occupy
          rcases lt_trichotomy i pos with hi | rfl | hi
          · rw [if_neg (by omega), if_neg (by omega), hrwlocks', Function.update_of_ne hi.ne]
          · rw [if_neg (by omega), if_pos (by omega), hrwlocks', Function.update_self]
          · rw [hbehind i hi]
            by_cases hlt : i < stop
            · rw [if_pos (by omega), if_pos (by omega)]
            · rw [if_neg (by omega), if_neg (by omega)]

namespace RwLockSet

/-- The second half of `resume`: go on, and wait where that is not possible. -/
def advance (r : RwLockSet Id Priority) (id : Id) (lock : Lock Priority) :
    Bool × RwLockSet Id Priority :=
  let (pos, rwlocks) :=
    acquire first id lock.write (lock.range.stop - lock.pos) lock.pos r.rwlocks
  if pos < lock.range.stop then
    let rwl := rwlocks pos
    let wait := ⟨id, lock.write, lock.priority, rwl.nextOrder⟩
    let rwl' := { rwl with nextOrder := rwl.nextOrder + 1, waits := insertWait wait rwl.waits }
    let lock' := { lock with pos, order := some rwl.nextOrder }
    (pos == lock.range.stop,
      ⟨Function.update rwlocks pos rwl', Function.update r.locks id (some lock')⟩)
  else
    (pos == lock.range.stop,
      ⟨rwlocks, Function.update r.locks id (some { lock with pos, order := none })⟩)

/-- Whether the lock is complete now. -/
def resume (r : RwLockSet Id Priority) (id : Id) : Option (Bool × RwLockSet Id Priority) :=
  (r.locks id).bind fun lock =>
    (takeWait id lock r.rwlocks).map fun rwlocks => advance first ⟨rwlocks, r.locks⟩ id lock

/-- Acquire a lock. -/
def lock (r : RwLockSet Id Priority) (id : Id) (range : Range ℕ) (write : Bool)
    (priority : Priority) : Option (Bool × RwLockSet Id Priority) :=
  let lock := ⟨range, write, range.start, priority, none⟩
  resume first { r with locks := Function.update r.locks id (some lock) } id

/-- Check for unblocked pending borrows.  The locks that are complete now are listed. -/
def resumeAll : List Id → RwLockSet Id Priority → Option (List Id × RwLockSet Id Priority)
  | [], r => some ([], r)
  | id :: ids, r =>
      (resume first r id).bind fun (complete, r) =>
        (resumeAll ids r).map fun (completed, r) =>
          (if complete then id :: completed else completed, r)

/-- The loop of `unlock`: give back `count` virtual locks below `pos`. -/
def release (id : Id) (write : Bool) :
    ℕ → ℕ → RwLockSet Id Priority → Option (List Id × RwLockSet Id Priority)
  | 0, _, r => some ([], r)
  | count + 1, pos, r =>
      let pos := pos - 1
      let rwl := r.rwlocks pos
      let rwl' := { rwl with owners := rwl.owners.filter fun owner => owner ≠ (id, write) }
      (resumeAll first (rwl.waits.map Wait.id) ⟨Function.update r.rwlocks pos rwl', r.locks⟩).bind
        fun (completed, r) =>
          (release id write count pos r).map fun (completed', r) => (completed ++ completed', r)

/-- Release a lock. -/
def unlock (r : RwLockSet Id Priority) (id : Id) : Option (List Id × RwLockSet Id Priority) :=
  (r.locks id).bind fun lock =>
    (takeWait id lock r.rwlocks).bind fun rwlocks =>
      release first id lock.write (lock.pos - lock.range.start) lock.pos
        { rwlocks, locks := Function.update r.locks id none }

def isComplete (r : RwLockSet Id Priority) (id : Id) : Option Bool :=
  (r.locks id).map fun lock => lock.pos == lock.range.stop

section LockUnlock
variable {first} {r : RwLockSet Id Priority} {id : Id} {write : Bool} {range : Range ℕ} {e : ℕ}
  {rwlocks : ℕ → RwLock Id Priority}

/-- To unlock a lock that has got as far as `e` is to leave its wait list and to release what is in
front of `e`. -/
theorem lock_unlock (hid : r.locks id = none)
    (hacquire : acquire first id write (range.stop - range.start)
      range.start r.rwlocks = (e, rwlocks))
    (hlt : e < range.stop) (hordered : (rwlocks e).WellOrdered) (priority : Priority) :
    ∃ r₁, r.lock first id range write priority = some (false, r₁) ∧
      r₁.unlock first id = release first id write (e - range.start) e
        ⟨Function.update rwlocks e { rwlocks e with nextOrder := (rwlocks e).nextOrder + 1 },
          r.locks⟩ := by
  set rwl : RwLock Id Priority := { rwlocks e with
    nextOrder := (rwlocks e).nextOrder + 1
    waits := insertWait ⟨id, write, priority, (rwlocks e).nextOrder⟩ (rwlocks e).waits } with hrwl
  refine ⟨⟨Function.update rwlocks e rwl, Function.update r.locks id
    (some ⟨range, write, e, priority, some (rwlocks e).nextOrder⟩)⟩, ?_, ?_⟩
  · have hne : (e == range.stop) = false := by simpa using hlt.ne
    unfold lock resume takeWait advance
    simp only [Function.update_self, Option.bind_some, Option.map_some, hacquire, if_pos hlt,
      Function.update_idem, hne]
    rfl
  · have hremove : removeWait ⟨id, write, priority, (rwlocks e).nextOrder⟩ rwl.waits =
        some (rwlocks e).waits := removeWait_insertWait (hordered.cmp_ne rfl)
    have hlocks : Function.update r.locks id none = r.locks := by
      rw [← hid, Function.update_eq_self]
    unfold unlock takeWait
    simp only [Function.update_self, Option.bind_some, hremove, Option.map_some,
      Function.update_idem, hlocks]
    rfl

end LockUnlock

end RwLockSet

end Operations

/-- Two readers wait for a writer. -/
example : (do
    let (_, r) ← RwLockSet.lock List.head? (RwLockSet.new : RwLockSet ℕ ℕ) 1 ⟨0, 1⟩ true 0
    let (_, r) ← r.lock List.head? 2 ⟨0, 4⟩ false 0
    let (_, r) ← r.lock List.head? 3 ⟨0, 5⟩ false 0
    return (← r.unlock List.head? 1).1) = some [2, 3] := by decide +kernel

end Interlock.Core.Refr
