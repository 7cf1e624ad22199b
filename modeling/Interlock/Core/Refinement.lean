import Interlock.Core.Mirrors
import Interlock.Core.Safety
import Interlock.Core.Unchecked

/-!
# The core is an array of virtual locks

A core and the array of virtual locks go through the same calls, side by side, and give the same
answers.  On the side of the core this is about tables first.  What an unlock call does to the table
is easier to see if the lock is taken out before its waiters are tried: how much of it is left at
the time makes no difference to them.
-/

namespace Interlock.Core

open Memory RbTree

variable {Priority InProgress : Type} [LinearOrder Priority]

section Relation
variable {first : List (LockId × Bool) → Option (LockId × Bool)}
  {extra : LockId × Bool → ℕ → Prop} {s s' : Table ℕ Priority InProgress}
  {r : Refr.RwLockSet LockId Priority}
  {rwlocks : ℕ → Refr.RwLock LockId Priority} {p : LockPtr} {l l' : Lock ℕ} {range : Range ℕ}
  {strict : Prop}

/-! ## The operations -/

/-- A lock that has claimed a range, and holds none of it yet. -/
theorem Table.Sound.claim (hs : s.Sound strict) (hp : s.locks p = none)
    (hrange : range.start < range.stop) : (s.add p range none).Sound strict := by
  refine hs.add hp ⟨hrange.le, fun _ => hrange, fun e he => ?_⟩ fun i hi => ?_
  · cases he
  · exact absurd hi.2 (not_lt.mpr hi.1)

theorem Table.Sound.claim_firstConflict (hs : s.Sound strict) (hp : s.locks p = none)
    (hrange : range.start < range.stop) (range' : Range ℕ) :
    (s.add p range none).firstConflict p range' = s.firstConflict p range' := by
  apply ((hs.claim hp hrange).firstConflict_isFirst p range').unique
  apply (hs.firstConflict_isFirst p range').congr
  intro i
  unfold Table.ConflictAt
  constructor
  · intro hi
    obtain ⟨q, l, hl, hrest⟩ := hi
    have hqp : q ≠ p := fun heq => by simp [heq, hp] at hl
    exact ⟨q, l, by rwa [Table.add_locks, if_neg hqp], hrest⟩
  · intro hi
    obtain ⟨q, l, hl, hconf, hconflict⟩ := hi
    rw [Table.add_locks] at hl
    split at hl
    · obtain rfl := Option.some.inj hl
      cases hconflict
    · exact ⟨q, l, hl, hconf, hconflict⟩

omit [LinearOrder Priority] in
theorem SameOwners.claim (h : SameOwners extra s rwlocks) (hp : s.locks p = none)
    (range : Range ℕ) :
    SameOwners extra (s.add p range none) rwlocks := by
  intro i owner
  rw [h i owner]
  apply or_congr_left
  constructor
  · intro howner
    obtain ⟨q, l, rfl, hl, hholds⟩ := howner
    have hqp : q ≠ p := fun heq => by simp [heq, hp] at hl
    exact ⟨q, l, rfl, by rwa [Table.add_locks, if_neg hqp], hholds⟩
  · intro howner
    obtain ⟨q, l, rfl, hl, hholds⟩ := howner
    rw [Table.add_locks] at hl
    split at hl
    · obtain rfl := Option.some.inj hl
      exact absurd hholds.2 (not_lt.mpr hholds.1)
    · exact ⟨q, l, rfl, hl, hholds⟩

/-- A lock call: `s'` is the table after it. -/
theorem InStep.lockCall (h : InStep s r) (hs : s.Sound True) (hfirst : Picks first)
    (hp : s.locks p = none) (hrange : range.start < range.stop) (priority : Priority)
    (hother : ∀ q, q ≠ p → s'.locks q = s.locks q) (hl' : s'.locks p = some l')
    (hrequest : l'.request = range)
    (hpos : l'.pos = (s.firstConflict p range).getD range.stop)
    (hfifo : s'.fifo = standsAt s.fifo p priority (s.firstConflict p range)) :
    ∃ r', r.lock first (some p) range p.kind.isWrite priority =
        some ((s.firstConflict p range).isNone, r') ∧ InStep s' r' := by
  set lock : Refr.Lock Priority := ⟨range, p.kind.isWrite, range.start, priority, none⟩ with hlock
  have hl : (s.add p range none).locks p = some ⟨range.start, range.stop, none⟩ := by
    rw [Table.add_locks, if_pos rfl]
  have hlocks : SameLocks (s.add p range none) (Function.update r.locks (some p) (some lock)) := by
    refine h.locks.update (fun q hq => ?_) hl ⟨rfl, rfl, rfl⟩
    rw [Table.add_locks, if_neg hq]
  have hwaits : SameWaits s.fifo r.rwlocks (Function.update r.locks (some p) (some lock)) := by
    refine h.waits.congr (fun i => rfl) (fun i => le_rfl) fun id lock' horder => ?_
    by_cases hid : id = some p
    · rw [hid, Function.update_self, h.locks.lock_none p hp]
      refine iff_of_false ?_ ?_
      · rintro ⟨⟩
        exact horder rfl
      · rintro ⟨⟩
    · rw [Function.update_of_ne hid]
  have hconflict := hs.claim_firstConflict hp hrange range
  have hadvance : ∃ r', Refr.RwLockSet.advance first
        ⟨r.rwlocks, Function.update r.locks (some p) (some lock)⟩ (some p) lock =
          (((s.add p range none).firstConflict p range).isNone, r') ∧
      Mirrors nobody s'
        (standsAt s.fifo p priority ((s.add p range none).firstConflict p range)) r' := by
    refine Mirrors.advance (by rwa [Function.update_idem]) (h.owners.claim hp range)
      (by rwa [Function.update_idem]) (hs.claim hp hrange) hfirst hl hrange
      (fun owner i howner => howner.elim) (fun q hq => ?_) hl' hrequest ?_
    · rw [hother q hq, Table.add_locks, if_neg hq]
    · exact hpos.trans (congrArg (fun conflict => conflict.getD range.stop) hconflict.symm)
  rw [hconflict, ← hfifo] at hadvance
  obtain ⟨r', hadvance, hmirrors⟩ := hadvance
  refine ⟨r', ?_, hmirrors⟩
  unfold Refr.RwLockSet.lock Refr.RwLockSet.resume Refr.takeWait
  simp only [Function.update_self, Option.bind_some, Option.map_some]
  rw [← hlock, hadvance]

theorem InStep.lock_call (h : InStep s r) (hs : s.Sound True) (hfirst : Picks first)
    (hp : s.locks p = none) (hrange : range.start < range.stop) (priority : Priority)
    (inProgress : InProgress) :
    ∃ r', r.lock first (some p) range p.kind.isWrite priority =
        some ((s.firstConflict p range).isNone, r') ∧
      InStep (s.lock p range priority inProgress) r' := by
  have hother : ∀ q, q ≠ p → (s.lock p range priority inProgress).locks q = s.locks q := fun q hq =>
    Table.lock_locks_of_ne hq priority inProgress
  cases hconflict : s.firstConflict p range with
  | none =>
      rw [Table.lock_of_none hconflict] at hother ⊢
      have hlocks := (Table.add_locks s p p range (some range.stop)).trans (if_pos rfl)
      have hcall := h.lockCall hs hfirst hp hrange priority hother hlocks rfl
        (by rw [hconflict]; rfl)
        (by rw [hconflict]; rfl)
      rwa [hconflict] at hcall
  | some i =>
      set held := if i = range.start then none else some i with hheld
      rw [Table.lock_of_some hconflict, ← hheld] at hother ⊢
      have hlocks : ((s.add p range held).enqueue
          (p, ⟨⟨i, range.stop⟩, priority, p, inProgress⟩)).locks p =
            some ⟨range.start, range.stop, held⟩ := (Table.add_locks _ _ _ _ _).trans (if_pos rfl)
      have hpos : held.getD range.start = i := by
        rw [hheld]
        split
        · next hstart => exact hstart.symm
        · rfl
      have hcall := h.lockCall hs hfirst hp hrange priority hother hlocks rfl
        (by rw [hconflict]; exact hpos) (by
          rw [hconflict]
          funext j c
          exact Table.fifo_enqueue _ _ j c)
      rwa [hconflict] at hcall

theorem InStep.tryLock_call (h : InStep s r) (hs : s.Sound True) (hfirst : Picks first)
    (hp : s.locks p = none) (hrange : range.start < range.stop) (priority : Priority)
    (hconflict : s.firstConflict p range = none) :
    ∃ r', r.lock first (some p) range p.kind.isWrite priority = some (true, r') ∧
      InStep (s.tryLock p range) r' := by
  have hlocks : (s.tryLock p range).locks p = some ⟨range.start, range.stop, some range.stop⟩ := by
    rw [Table.tryLock, hconflict]
    exact (Table.add_locks _ _ _ _ _).trans (if_pos rfl)
  have hpos : range.stop = (s.firstConflict p range).getD range.stop := by
    rw [hconflict, Option.getD_none]
  have hfifo : (s.tryLock p range).fifo = standsAt s.fifo p priority (s.firstConflict p range) := by
    rw [Table.tryLock, hconflict]
    rfl
  have hlock := h.lockCall hs hfirst hp hrange priority (fun q hq => Table.tryLock_locks_of_ne hq)
    hlocks rfl hpos hfifo
  rwa [hconflict] at hlock

/-- No waiter of a quiet table gets anywhere. -/
theorem Table.Quiet.foldl_resume (hs : s.Quiet True)
    {visits : List (LockPtr × Pending ℕ Priority InProgress)}
    (hvisits : ∀ x ∈ visits, x ∈ s.queue) :
    visits.foldl Table.resume s = s ∧ s.completed visits = [] := by
  induction visits with
  | nil => exact ⟨rfl, rfl⟩
  | cons x visits ih =>
      have hx := hvisits x List.mem_cons_self
      obtain ⟨q, hq⟩ := hs.blocked trivial x hx
      obtain ⟨hconflict, hresume⟩ := hs.toSound.resume_blocked trivial hx hq
      obtain ⟨hfoldl, hcompleted⟩ := ih fun y hy => hvisits y (List.mem_cons_of_mem _ hy)
      constructor
      · rw [List.foldl_cons, hresume, hfoldl]
      · rw [Table.completed, hconflict, hresume, hcompleted]
        rfl

/-- An attempt that fails: a lock that is released at once.  In between, all waiters that it has
stood in the way of are tried, in vain. -/
theorem InStep.attempt (h : InStep s r) (hs : s.Quiet True) (hfirst : Picks first)
    (hrange : range.start < range.stop) (priority : Priority)
    (hconflict : s.firstConflict p range ≠ none) :
    ∃ r₁ r', r.lock first none range p.kind.isWrite priority = some (false, r₁) ∧
      r₁.unlock first none = some ([], r') ∧ InStep s r' := by
  obtain ⟨e, hle, hend, hacquire⟩ := h.owners.acquire (p := p) hs.toSound hfirst hrange
    (fun owner i howner => howner.elim) none
  have hlt : e < range.stop := by
    rcases hend with ⟨-, hlt⟩ | ⟨hnone, -⟩
    · exact hlt
    · exact absurd hnone hconflict
  set owner : LockId × Bool := (none, p.kind.isWrite)
  set rwlocks := Refr.occupy owner range.start e r.rwlocks with hrwlocks
  have hordered : (rwlocks e).WellOrdered := by
    have hordered := h.waits.ordered e
    exact ⟨by simpa [hrwlocks] using hordered.sorted, by simpa [hrwlocks] using hordered.order_lt⟩
  obtain ⟨r₁, hlock, hunlock⟩ := Refr.RwLockSet.lock_unlock h.locks.attempt hacquire hlt
    hordered priority
  -- What is left of the attempt are the virtual locks in front of `e`
  set rwlocks' := Function.update rwlocks e
    { rwlocks e with nextOrder := (rwlocks e).nextOrder + 1 } with hrwlocks'
  have howners : ∀ i, (rwlocks' i).owners = (rwlocks i).owners := fun i =>
    Refr.field_update Refr.RwLock.owners (by rfl) i
  have hwaits : ∀ i, (rwlocks' i).waits = (r.rwlocks i).waits := fun i =>
    (Refr.field_update Refr.RwLock.waits (by rfl) i).trans Refr.occupy_waits
  have hnext : ∀ i, (r.rwlocks i).nextOrder ≤ (rwlocks' i).nextOrder := by
    intro i
    by_cases hi : i = e
    · rw [hi, hrwlocks', Function.update_self, hrwlocks, Refr.occupy_nextOrder]
      exact Nat.le_succ _
    · rw [hrwlocks', Function.update_of_ne hi, hrwlocks, Refr.occupy_nextOrder]
  have hmirrors : Mirrors (owned owner range.start e) s s.fifo ⟨rwlocks', r.locks⟩ := by
    refine ⟨h.locks, fun i other => ?_, h.waits.congr hwaits hnext fun _ _ _ => Iff.rfl⟩
    simp only [howners, hrwlocks, Refr.mem_occupy_owners, h.owners i other, nobody, or_false]
    exact or_comm
  have hcount : range.start + (e - range.start) = e := by omega
  rw [← hcount] at hmirrors
  obtain ⟨r', hrelease, hinstep⟩ := hmirrors.release hs.toSound hfirst fun q l _ =>
    (Option.some_ne_none q).symm
  have hvisits : ∀ x ∈ s.waitersIn range.start (range.start + (e - range.start)), x ∈ s.queue :=
    fun x hx => List.mem_of_mem_filter (List.mem_reverse.mp hx)
  obtain ⟨hfoldl, hcompleted⟩ := hs.foldl_resume hvisits
  rw [hcompleted, hcount] at hrelease
  rw [hfoldl] at hinstep
  exact ⟨r₁, r', hlock, hunlock.trans hrelease, hinstep⟩

omit [LinearOrder Priority] in
/-- `p` owns what it has held. -/
theorem SameOwners.forget (h : SameOwners nobody s rwlocks) (hl : s.locks p = some l) :
    SameOwners (owned (some p, p.kind.isWrite) l.start l.pos) (s.forget p) rwlocks := by
  intro i owner
  rw [h i owner]
  constructor
  · intro howner
    rcases howner with ⟨q, lq, rfl, hlq, hholds⟩ | hnobody
    · by_cases hqp : q = p
      · subst hqp
        obtain rfl := Option.some.inj (hl.symm.trans hlq)
        exact Or.inr ⟨rfl, hholds⟩
      · exact Or.inl ⟨q, lq, rfl, by rwa [Table.forget_locks, if_neg hqp], hholds⟩
    · exact hnobody.elim
  · intro howner
    rcases howner with ⟨q, lq, rfl, hlq, hholds⟩ | ⟨rfl, hholds⟩
    · rw [Table.forget_locks] at hlq
      split at hlq
      · cases hlq
      · exact Or.inl ⟨q, lq, rfl, hlq, hholds⟩
    · exact Or.inl ⟨p, l, rfl, hl, hholds⟩

/-- An unlock call, first without the lock, and then with all who waited in its region. -/
theorem InStep.unlockCall (h : InStep s r) (hs : s.Sound True) (hfirst : Picks first)
    (hl : s.locks p = some l) :
    ∃ r', r.unlock first (some p) =
        some ((((s.dequeue p).forget p).completed ((s.dequeue p).waitersOf p)).map some, r') ∧
      InStep (((s.dequeue p).waitersOf p).foldl Table.resume ((s.dequeue p).forget p)) r' := by
  set t := (s.dequeue p).forget p with ht
  have hldeq : (s.dequeue p).locks p = some l := hl
  have hsound : t.Sound True := (hs.dequeue p).forget (Table.not_mem_dequeue s p)
  obtain ⟨lock, hlock, hstands⟩ := h.locks.lock_some p l hl
  obtain ⟨rwlocks', htake, howners, hwaits⟩ := h.waits.takeWait hlock
  have hlocks : SameLocks (s.dequeue p) r.locks :=
    ⟨h.locks.lock_none, h.locks.lock_some, h.locks.attempt⟩
  have howned : SameOwners (owned (some p, lock.write) l.start l.pos) t rwlocks' := by
    have hsame : SameOwners nobody (s.dequeue p) rwlocks' := h.owners.congr howners
    rw [hstands.write]
    exact hsame.forget hldeq
  have hfifo : SameWaits t.fifo rwlocks' (Function.update r.locks (some p) none) := by
    have hwithout : t.fifo = without s.fifo p := by
      funext i c
      exact Table.fifo_dequeue s p i c
    rw [hwithout]
    refine hwaits.congr (fun i => rfl) (fun i => le_rfl) fun id lock' horder => ?_
    by_cases hid : id = some p
    · rw [hid, Function.update_self, Function.update_self]
      refine iff_of_false ?_ ?_
      · rintro ⟨⟩
      · rintro ⟨⟩
        exact horder rfl
    · rw [Function.update_of_ne hid, Function.update_of_ne hid]
  have hstart : lock.range.start = l.start := congrArg Range.start hstands.range
  have hcount : l.start + (lock.pos - lock.range.start) = l.pos := by
    have hle := (hs.wellFormed p l hl).start_le_pos
    rw [hstart, hstands.pos]
    omega
  have hmirrors : Mirrors (owned (some p, lock.write) l.start l.pos) t t.fifo
      ⟨rwlocks', Function.update r.locks (some p) none⟩ := ⟨hlocks.forget p, howned, hfifo⟩
  rw [← hcount] at hmirrors
  obtain ⟨r', hrelease, hinstep⟩ := hmirrors.release hsound hfirst fun q lq hlq heq => by
    obtain rfl := Option.some.inj heq
    simp [ht, Table.forget_locks] at hlq
  have hwaiters : t.waitersIn l.start l.pos = (s.dequeue p).waitersOf p := by
    simp only [Table.waitersOf, hldeq]
    rfl
  rw [hcount, hwaiters] at hrelease hinstep
  refine ⟨r', ?_, hinstep⟩
  rw [← hrelease, hstands.pos.symm]
  unfold Refr.RwLockSet.unlock
  simp only [hlock, Option.bind_some, htake]

theorem Table.fifo_write (s : Table ℕ Priority InProgress) (p : LockPtr)
    (f : InProgress → InProgress) : (s.write p f).fifo = s.fifo := by
  funext i c
  unfold Table.fifo Table.waitersAt Table.write classOf
  simp only [List.filter_map, List.filter_reverse, List.map_reverse, List.map_map,
    Function.comp_def,
    Table.writeEntry_fst, Table.writeEntry_range, Table.writeEntry_priority]

/-- A write into a waiter's value is not seen by the array. -/
theorem InStep.write (h : InStep s r) (p : LockPtr) (f : InProgress → InProgress) :
    InStep (s.write p f) r := by
  refine ⟨⟨h.locks.lock_none, h.locks.lock_some, h.locks.attempt⟩, h.owners, ?_⟩
  rw [Table.fifo_write]
  exact h.waits

/-- A lock is complete in the array if and only if it does not wait. -/
theorem InStep.isComplete (h : InStep s r) (hs : s.Quiet True) (hl : s.locks p = some l) :
    r.isComplete (some p) = some (s.waiting p).isNone := by
  obtain ⟨lock, hlock, hstands⟩ := h.locks.lock_some p l hl
  have hstop : lock.range.stop = l.stop := congrArg Range.stop hstands.range
  unfold Refr.RwLockSet.isComplete
  rw [hlock, Option.map_some, hstands.pos, hstop]
  by_cases hp : p ∈ s.queue.map Prod.fst
  · obtain ⟨x, hx, rfl⟩ := List.mem_map.mp hp
    obtain ⟨l', hl', -, hwf, hlt⟩ := hs.toSound.exists_lock hx
    obtain rfl := Option.some.inj (hl.symm.trans hl')
    have hlt := hlt (hwf.nonempty (Or.inl trivial))
    rw [hs.toSound.waiting_eq_some hx]
    simpa using hlt.ne
  · have hpos : l.pos = l.stop := by rw [Lock.pos, hs.settled p l hl hp, Option.getD_some]
    rw [Table.waiting_eq_none hp, hpos]
    simp

/-! ## The table during a release -/

section Release
variable {x : LockPtr × Pending ℕ Priority InProgress}
  {visits : List (LockPtr × Pending ℕ Priority InProgress)}

/-- What is left of `p` is in nobody's way. -/
theorem Table.Releasing.forget_firstConflict (h : s.Releasing strict p (x :: visits)) :
    (s.truncate p x.2.range.start).firstConflict x.1 x.2.range =
      (s.forget p).firstConflict x.1 x.2.range := by
  obtain ⟨l, hl, hregion⟩ := h.region
  obtain ⟨hstart, -⟩ := hregion x List.mem_cons_self
  obtain ⟨l₁, hl₁, -, -, hpos⟩ := Table.truncate_pos_le hl hstart
  apply (h.truncate.firstConflict_isFirst x.1 x.2.range).unique
  apply ((h.toSound.forget h.not_waiting).firstConflict_isFirst x.1 x.2.range).congr
  intro i
  unfold Table.ConflictAt
  constructor
  · intro hi
    obtain ⟨q, lq, hlq, hrest⟩ := hi
    rw [Table.forget_locks] at hlq
    split at hlq
    · cases hlq
    · next hqp => exact ⟨q, lq, by rwa [Table.truncate_locks hl, if_neg hqp], hrest⟩
  · intro hi
    obtain ⟨q, lq, hlq, hconf, hconflict⟩ := hi
    have hqp : q ≠ p := by
      rintro rfl
      obtain rfl := Option.some.inj (hl₁.symm.trans hlq)
      obtain ⟨e, he, -, hlt, -⟩ := Lock.conflict_eq_some.mp hconflict
      have hpos : e ≤ x.2.range.start := by simpa [Lock.pos, he] using hpos
      omega
    rw [Table.truncate_locks hl, if_neg hqp] at hlq
    exact ⟨q, lq, by rwa [Table.forget_locks, if_neg hqp], hconf, hconflict⟩

/-- The waiters do not see how much of `p` is left. -/
theorem Table.Releasing.visit_forget (h : s.Releasing strict p (x :: visits)) :
    (s.visit p x).forget p = (s.forget p).resume x := by
  obtain ⟨l, hl, -⟩ := h.region
  have hxp : x.1 ≠ p := fun heq => h.not_waiting (heq ▸ List.mem_map_of_mem h.mem_queue)
  have htruncate : (s.truncate p x.2.range.start).forget p = s.forget p := by
    unfold Table.forget
    rw [Table.truncate_live, Table.truncate_queue]
    congr 1
    funext q
    rw [Function.update_apply, Function.update_apply, Table.truncate_locks hl]
    split
    · rfl
    · rfl
  have hsetHeld : ∀ (t : Table ℕ Priority InProgress) held,
      (t.setHeld x.1 held).forget p = (t.forget p).setHeld x.1 held := by
    intro t held
    unfold Table.setHeld Table.forget
    simp only [Function.update_of_ne hxp, Function.update_comm hxp.symm]
  rw [Table.visit_eq, Table.resume, h.forget_firstConflict, Table.resume, ← htruncate]
  unfold Table.resumeAt
  split
  · split
    · rfl
    · exact congrArg (fun t : Table ℕ Priority InProgress => t.enqueue (Table.moveTo x _))
        (hsetHeld ((s.truncate p x.2.range.start).dequeue x.1) _)
  · exact hsetHeld ((s.truncate p x.2.range.start).dequeue x.1) _

end Release

end Relation

/-! ## Runs -/

namespace System
variable {first : List (LockId × Bool) → Option (LockId × Bool)}
  {σ σ' : System ℕ Priority InProgress}
  {core : Addr} {p : LockPtr} {x : LockPtr × Pending ℕ Priority InProgress}
  {visits : List (LockPtr × Pending ℕ Priority InProgress)}

/-- The release of a lock, without the lock. -/
theorem Releasing.release_eq (h : Releasing True core p visits σ.tables) :
    ((σ.release core p visits).tables core).forget p =
        visits.foldl Table.resume ((σ.tables core).forget p) ∧
      (completions (σ.release core p visits).log).map Prod.fst =
        (((σ.tables core).forget p).completed visits).reverse ++
          (completions σ.log).map Prod.fst := by
  induction visits generalizing σ with
  | nil => exact ⟨rfl, rfl⟩
  | cons x visits ih =>
      obtain ⟨htable, hlog⟩ := ih h.visit
      have hforget : ((σ.visit core p x).tables core).forget p =
          ((σ.tables core).forget p).resume x := by
        rw [visit_tables, Function.update_self]
        exact h.table.visit_forget
      have hshrunk : (σ.shrunk core p x core).firstConflict x.1 x.2.range =
          ((σ.tables core).forget p).firstConflict x.1 x.2.range := by
        rw [shrunk_self]
        exact h.table.forget_firstConflict
      rw [hforget] at htable hlog
      refine ⟨htable, hlog.trans ?_⟩
      rw [Table.completed]
      cases hconflict : ((σ.tables core).forget p).firstConflict x.1 x.2.range with
      | some i =>
          rw [visit_log_some (hshrunk.trans hconflict)]
          rfl
      | none =>
          rw [visit_log_none (hshrunk.trans hconflict)]
          simp [completions]

theorem unlock_eq (hgood : Good True σ.tables) {l : Lock ℕ}
    (hl : (σ.tables core).locks p = some l) :
    ((σ.unlock core p).tables core) = (((σ.tables core).dequeue p).waitersOf p).foldl Table.resume
        (((σ.tables core).dequeue p).forget p) ∧
      (completions (σ.unlock core p).log).map Prod.fst =
        ((((σ.tables core).dequeue p).forget p).completed
          (((σ.tables core).dequeue p).waitersOf p)).reverse ++ (completions σ.log).map
            Prod.fst := by
  obtain ⟨htable, hlog⟩ := (Releasing.init hgood hl).release_eq
  rw [put_tables, Function.update_self] at htable hlog
  refine ⟨?_, ?_⟩
  · rw [← htable]
    simp only [unlock, put_tables, Function.update_self]
  · rw [put_log] at hlog
    rw [← hlog]
    simp only [unlock, put_log, put_tables, Function.update_self]

end System

/-- What the array of a core does when a call of the core returns `reply`: it makes the same call,
and the locks `completed` are complete after it.  `attempt` is the priority of attempts; one that
fails is a lock that is released at once. -/
inductive Refr.Answers (first : List (LockId × Bool) → Option (LockId × Bool)) (attempt : Priority)
    (r : Refr.RwLockSet LockId Priority) : Call ℕ Priority InProgress → Reply InProgress →
      List LockPtr → Refr.RwLockSet LockId Priority → Prop where
  | lock {isWrite core state range priority inProgress complete r'}
      (h : r.lock first (some (lockPtr isWrite state)) range isWrite priority =
        some (complete, r')) :
      Refr.Answers first attempt r (.lock isWrite core state range priority inProgress)
        (.locked complete) [] r'
  | tryLock {isWrite core state range r'}
      (h : r.lock first (some (tryLockPtr isWrite state)) range isWrite attempt = some (true, r')) :
      Refr.Answers first attempt r (.tryLock isWrite core state range) (.locked true) [] r'
  | tryLockFails {isWrite core state range r₁ r'}
      (h : r.lock first none range isWrite attempt = some (false, r₁))
      (h' : r₁.unlock first none = some ([], r')) :
      Refr.Answers first attempt r (.tryLock isWrite core state range) (.locked false) [] r'
  | unlock {core p value completed r'}
      (h : r.unlock first (some p) = some (completed.map some, r')) :
      Refr.Answers first attempt r (.unlock core p) (.unlocked value) completed r'
  | inspectComplete {isWrite core state write}
      (h : r.isComplete (some (lockPtr isWrite state)) = some true) :
      Refr.Answers first attempt r (.inspect isWrite core state write) (.inspected .complete) [] r
  | inspectPending {isWrite core state write value}
      (h : r.isComplete (some (lockPtr isWrite state)) = some false) :
      Refr.Answers first attempt r (.inspect isWrite core state write)
        (.inspected (.inProgress value)) [] r

/-- The array `r` has the locks of `core`: the same requests, the same virtual locks and the same
wait lists. -/
structure World.ArrayOf (world : World ℕ Priority InProgress) (core : Addr)
    (r : Refr.RwLockSet LockId Priority) : Prop where
  live : ∀ p, world.store.parent p = some core ↔ (r.locks (some p)).isSome
  lock : ∀ p lock, r.locks (some p) = some lock → requested p world.log = some lock.range ∧
    lock.write = p.kind.isWrite ∧
    (∀ i, world.store.Holds core p i ↔ lock.range.start ≤ i ∧ i < lock.pos) ∧
    (world.store.Complete core p ↔ lock.pos = lock.range.stop)
  owners : ∀ i owner, owner ∈ (r.rwlocks i).owners ↔
    ∃ p, owner = (some p, p.kind.isWrite) ∧ world.store.Holds core p i
  waits : ∀ i seq, world.store.Queue core seq →
    (r.rwlocks i).waits.map (fun w => (w.id, w.priority)) =
      (seq.filter fun x => x.2.range.start = i).reverse.map fun x => (some x.1, x.2.priority)

/-- The array of each core, call by call: it answers the calls that return as the core does, the
same locks are complete in the same order, and it has the locks of the core after each call. -/
inductive Mirrored (debug : Bool) (first : List (LockId × Bool) → Option (LockId × Bool))
    (attempt : Priority) : World ℕ Priority InProgress →
      (Addr → Refr.RwLockSet LockId Priority) → Prop where
  | init : Mirrored debug first attempt .init fun _ => .new
  | returned {world world' refr call reply completed r'}
      (run : Mirrored debug first attempt world refr)
      (h : Call.perform debug call world = .ok reply world')
      (answers : Refr.Answers first attempt (refr call.core) call reply completed r')
      (hcompleted : (completions world'.log).map Prod.fst =
        completed.reverse ++ (completions world.log).map Prod.fst)
      (arrays : ∀ core, (world'.note (.returned call reply world'.store)).ArrayOf core
        (Function.update refr call.core r' core)) :
      Mirrored debug first attempt (world'.note (.returned call reply world'.store))
        (Function.update refr call.core r')
  | panicked {world world' refr call message} (run : Mirrored debug first attempt world refr)
      (h : Call.perform debug call world = .error (.panic message) world')
      (hcompleted : completions world'.log = completions world.log)
      (arrays : ∀ core, (world'.note (.panicked call)).ArrayOf core (refr core)) :
      Mirrored debug first attempt (world'.note (.panicked call)) refr

section Steps
variable {first : List (LockId × Bool) → Option (LockId × Bool)} {attempt : Priority}
  {misuse : Prop}
  {σ σ' : System ℕ Priority InProgress} {refr : Addr → Refr.RwLockSet LockId Priority}

omit [LinearOrder Priority] in
theorem completions_lockEvent (conflict : Option ℕ) (p : LockPtr) (inProgress : InProgress)
    (log : List (Event ℕ Priority InProgress (Tables ℕ Priority InProgress))) :
    completions (lockEvent conflict p inProgress :: log) = completions log := by
  cases conflict <;> rfl

/-- One core has made a call, and its array has. -/
theorem inStep_update (core : Addr) {s' : Table ℕ Priority InProgress}
    {r' : Refr.RwLockSet LockId Priority} (h : ∀ c, InStep (σ.tables c) (refr c))
    (h' : InStep s' r')
    (c : Addr) : InStep (Function.update σ.tables core s' c) (Function.update refr core r' c) := by
  by_cases hc : c = core
  · rw [hc, Function.update_self, Function.update_self]
    exact h'
  · rw [Function.update_of_ne hc, Function.update_of_ne hc]
    exact h c

/-- A call returns, and the array answers it as the core does; or it panics. -/
theorem System.Step.answers (hgood : Good True σ.tables) (hfirst : Picks first) (attempt : Priority)
    (h : ∀ c, InStep (σ.tables c) (refr c)) (step : System.Step misuse Nonempty σ σ') :
    (∃ call reply log completed r', σ'.log = .returned call reply σ'.tables :: log ∧
      Refr.Answers first attempt (refr call.core) call reply completed r' ∧
      (completions log).map Prod.fst = completed.reverse ++ (completions σ.log).map Prod.fst ∧
      ∀ c, InStep (σ'.tables c) (Function.update refr call.core r' c)) ∨
    ∃ call log, σ'.log = .panicked call :: log ∧ completions log = completions σ.log ∧
      ∀ c, InStep (σ'.tables c) (refr c) := by
  cases step with
  | @lock isWrite core state range priority inProgress hrange hfresh =>
      refine Or.inl ?_
      set p := lockPtr isWrite state
      have hwrite : p.kind.isWrite = isWrite := lockPtr_isWrite isWrite state
      have hlock : ∃ r', (refr core).lock first (some p) range p.kind.isWrite priority =
          some (((σ.tables core).firstConflict p range).isNone, r') ∧
            InStep ((σ.tables core).lock p range priority inProgress) r' :=
        (h core).lock_call (hgood.quiet core).toSound hfirst
          (locks_eq_none_of_not_inUse hfresh core)
          hrange priority inProgress
      rw [hwrite] at hlock
      obtain ⟨r', hlock, hinstep⟩ := hlock
      exact ⟨_, _, _, [], r', rfl, .lock hlock,
        congrArg (List.map Prod.fst) (completions_lockEvent _ _ _ _), inStep_update core h hinstep⟩
  | @tryLock isWrite core state range hrange hfresh =>
      refine Or.inl ?_
      set p := tryLockPtr isWrite state
      have hwrite : p.kind.isWrite = isWrite := tryLockPtr_isWrite isWrite state
      cases hconflict : (σ.tables core).firstConflict p range with
      | none =>
          have hp := locks_eq_none_of_not_inUse (hfresh hconflict) core
          obtain ⟨r', hlock, hinstep⟩ := (h core).tryLock_call (hgood.quiet core).toSound
            hfirst hp hrange
            attempt hconflict
          rw [hwrite] at hlock
          exact ⟨_, _, _, [], r', rfl, .tryLock hlock, rfl, inStep_update core h hinstep⟩
      | some i =>
          obtain ⟨r₁, r', hlock, hunlock, hinstep⟩ :=
            (h core).attempt (hgood.quiet core) hfirst hrange
            attempt (by rw [hconflict]; exact Option.some_ne_none i)
          have htable : (σ.tables core).tryLock p range = σ.tables core := by
            rw [Table.tryLock, hconflict]
          rw [hwrite] at hlock
          rw [← htable] at hinstep
          exact ⟨_, _, _, [], r', rfl, .tryLockFails hlock hunlock, rfl,
            inStep_update core h hinstep⟩
  | @unlock core p l hl =>
      refine Or.inl ?_
      obtain ⟨r', hunlock, hinstep⟩ := (h core).unlockCall (hgood.quiet core).toSound hfirst hl
      obtain ⟨htable, hlog⟩ := System.unlock_eq hgood hl
      refine ⟨_, _, _, _, r', rfl, .unlock hunlock, hlog, ?_⟩
      rw [← htable, System.unlock_tables, Function.update_self] at hinstep
      rw [System.returned_tables, System.unlock_tables]
      exact inStep_update core h hinstep
  | @inspect isWrite core state write l hl =>
      refine Or.inl ?_
      have hcomplete := (h core).isComplete (hgood.quiet core) hl
      have hinstep := inStep_update core h ((h core).write (lockPtr isWrite state) write)
      cases hwaiting : (σ.tables core).waiting (lockPtr isWrite state) with
      | none =>
          rw [hwaiting] at hcomplete
          exact ⟨_, _, _, [], refr core, rfl, .inspectComplete hcomplete, rfl, hinstep⟩
      | some value =>
          rw [hwaiting] at hcomplete
          exact ⟨_, _, _, [], refr core, rfl, .inspectPending hcomplete, rfl, hinstep⟩
  | lockPanic hmisuse isWrite core state range priority inProgress hused =>
      exact Or.inr ⟨_, _, rfl, completions_lockEvent _ _ _ _, h⟩
  | panic hmisuse call hmisused => exact Or.inr ⟨_, _, rfl, rfl, h⟩

end Steps

section Runs
variable {debug : Bool} {misuse : Prop} {first : List (LockId × Bool) → Option (LockId × Bool)}
  {world : World ℕ Priority InProgress} {σ : System ℕ Priority InProgress} {core : Addr}
  {r : Refr.RwLockSet LockId Priority}

theorem SimulatesWith.arrayOf (hσ : Simulates world σ) (hgood : Good True σ.tables)
    (hrequests : σ.Requests)
    (h : InStep (σ.tables core) r) : world.ArrayOf core r := by
  have hs := hgood.quiet core
  have hlocks : ∀ p, (∃ l, (σ.tables core).locks p = some l) ↔ (r.locks (some p)).isSome := by
    intro p
    cases hl : (σ.tables core).locks p with
    | none => simp [h.locks.lock_none p hl]
    | some l =>
        obtain ⟨lock, hlock, -⟩ := h.locks.lock_some p l hl
        simp [hlock]
  refine ⟨fun p => hσ.models.live_iff.trans (hlocks p), fun p lock hlock => ?_, fun i owner => ?_,
    fun i seq hseq => ?_⟩
  · obtain ⟨l, hl⟩ := (hlocks p).mpr (by rw [hlock]; rfl)
    obtain ⟨lock', hlock', hstands⟩ := h.locks.lock_some p l hl
    obtain rfl := Option.some.inj (hlock.symm.trans hlock')
    have hrange : lock.range = l.request := hstands.range
    refine ⟨?_, hstands.write, fun i => ?_, ?_⟩
    · rw [hσ.log.requested, hrequests p]
      refine ⟨core, ?_⟩
      rw [Table.requestOf, hl, Option.map_some, hrange]
    · rw [hσ.models.holds_iff, hstands.pos, hrange]
      constructor
      · intro hi
        obtain ⟨l', hl', hholds⟩ := hi
        obtain rfl := Option.some.inj (hl.symm.trans hl')
        exact hholds
      · exact fun hholds => ⟨l, hl, hholds⟩
    · have hcomplete := h.isComplete hs hl
      unfold Refr.RwLockSet.isComplete at hcomplete
      rw [hlock, Option.map_some, Option.some_inj] at hcomplete
      rw [hσ.models.complete_iff fun c => (hgood.quiet c).toSound, and_iff_right ⟨l, hl⟩,
        ← beq_iff_eq, hcomplete]
      constructor
      · intro hp
        rw [Table.waiting_eq_none hp]
        rfl
      · intro hwaiting hp
        obtain ⟨x, hx, rfl⟩ := List.mem_map.mp hp
        rw [hs.toSound.waiting_eq_some hx] at hwaiting
        cases hwaiting
  · rw [h.owners i owner]
    simp only [hσ.models.holds_iff, nobody, or_false]
    constructor
    · intro howner
      obtain ⟨q, l, rfl, hl, hholds⟩ := howner
      exact ⟨q, rfl, l, hl, hholds⟩
    · intro howner
      obtain ⟨q, rfl, l, hl, hholds⟩ := howner
      exact ⟨q, l, rfl, hl, hholds⟩
  · rw [hσ.models.queue_iff.mp hseq]
    exact h.waits.waits_eq hs.toSound.wellLinked i

/-- The core is an array of virtual locks.  The array of the tests, call by call, gives the same
answers, completes the same locks in the same order, and has the same locks, virtual locks and wait
lists. -/
theorem World.Run.mirrored (run : World.Run debug misuse Nonempty world) (hfirst : Picks first)
    (attempt : Priority) : ∃ refr, Mirrored debug first attempt world refr ∧
      ∀ core, world.ArrayOf core (refr core) := by
  have hmirrored : ∃ refr σ, Mirrored debug first attempt world refr ∧ Simulates world σ ∧
      System.Run misuse Nonempty σ ∧ ∀ core, InStep (σ.tables core) (refr core) := by
    induction run with
    | init => exact ⟨_, .init, .init, ⟨ModelsWith.init, List.Forall₂.nil⟩, .init, fun _ => .init⟩
    | @step world world' run step ih =>
        obtain ⟨refr, σ, hmirrored, hσ, hrun, hinstep⟩ := ih
        have hgood := hrun.good admissible_of_nonempty
        obtain ⟨σ', hσ', hstep⟩ := step.simulates admissible_of_nonempty hσ hgood fun _ => trivial
        have hrun' := hrun.step hstep
        have harrays : ∀ refr : Addr → Refr.RwLockSet LockId Priority,
            (∀ c, InStep (σ'.tables c) (refr c)) → ∀ c, world'.ArrayOf c (refr c) :=
          fun refr hinstep c => hσ'.arrayOf (hrun'.good admissible_of_nonempty)
            (hrun'.requests admissible_of_nonempty) (hinstep c)
        have hlog := hσ'.log
        rcases hstep.answers hgood hfirst attempt hinstep with
          ⟨call, reply, log, completed, r', hevent, hanswers, hcompleted, hinstep'⟩ |
          ⟨call, log, hevent, hcompleted, hinstep'⟩
        · rw [hevent] at hlog
          cases step with
          | returned call' haccepted hperform =>
              obtain ⟨hcall, hrest⟩ := List.forall₂_cons.mp hlog
              cases hcall
              refine ⟨_, σ', hmirrored.returned hperform hanswers ?_ (harrays _ hinstep'),
                hσ', hrun', hinstep'⟩
              rw [SameLogWith.completions hrest, hσ.log.completions, hcompleted]
          | panicked => cases hlog with
            | cons hcall => cases hcall
        · rw [hevent] at hlog
          cases step with
          | returned => cases hlog with
            | cons hcall => cases hcall
          | panicked hmisuse call' haccepted hperform =>
              obtain ⟨hcall, hrest⟩ := List.forall₂_cons.mp hlog
              cases hcall
              refine ⟨refr, σ', hmirrored.panicked hperform ?_ (harrays _ hinstep'),
                hσ', hrun', hinstep'⟩
              rw [SameLogWith.completions hrest, hσ.log.completions, hcompleted]
  obtain ⟨refr, σ, hmirrored, hσ, hrun, hinstep⟩ := hmirrored
  exact ⟨refr, hmirrored, fun core => hσ.arrayOf (hrun.good admissible_of_nonempty)
    (hrun.requests admissible_of_nonempty) (hinstep core)⟩

theorem picks_head : Picks List.head? where
  mem _ _ h := List.mem_of_mem_head? h
  eq_nil _ h := List.head?_eq_none_iff.mp h

/-- A writer is unlocked for which two readers and a writer wait. -/
theorem mirrored_handover : ∃ refr, Mirrored true List.head? 0 (World.after true handover) refr ∧
    ∀ core, (World.after true handover).ArrayOf core (refr core) :=
  (handover_run False).mirrored picks_head 0

end Runs

end Interlock.Core
