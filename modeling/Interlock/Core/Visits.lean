import Interlock.Core.Fifo
import Interlock.Core.Links

/-!
# What an unlock call visits and changes

The loop of `unlock_*_inner` visits the waiters that stand inside the region when it begins.
`Visited` is what is true of the tables after some of them: who has been seen when, and what has
become of it.

From this follow the order of the visits, and what an unlock call does to all the other locks.
-/

namespace Interlock.Core

open Memory RbTree

variable {Index Priority InProgress : Type} [LinearOrder Index] [LinearOrder Priority]

/-! ## The loop on tables -/

namespace Table
variable {strict : Prop} {s : Table Index Priority InProgress} {p : LockPtr}
  {x y : LockPtr × Pending Index Priority InProgress}

/-- The other waiters are in the queue as before. -/
theorem mem_resume_queue (hne : y.1 ≠ x.1) : y ∈ (s.resume x).queue ↔ y ∈ s.queue := by
  have hremove : y ∈ removeSeq x.1 s.queue ↔ y ∈ s.queue := by
    simp [removeSeq, hne]
  unfold Table.resume Table.resumeAt
  split
  · split
    · exact Iff.rfl
    · next i _ _ =>
        have hmoved : y ≠ moveTo x i := by
          intro heq
          apply hne
          rw [heq, moveTo]
        have hperm : y ∈ insertSeq pendingNodeCallback (moveTo x i) (removeSeq x.1 s.queue) ↔
            y = moveTo x i ∨ y ∈ removeSeq x.1 s.queue :=
          insertSeq_perm.mem_iff.trans List.mem_cons
        exact hperm.trans ((or_iff_right hmoved).trans hremove)
  · exact hremove

/-- ... and in the same order. -/
theorem resume_queue_sublist {xs : List (LockPtr × Pending Index Priority InProgress)}
    (h : xs.Sublist s.queue) (hx : ∀ y ∈ xs, y.1 ≠ x.1) : xs.Sublist (s.resume x).queue := by
  have hremove : xs.Sublist (removeSeq x.1 s.queue) := by
    have hself : removeSeq x.1 xs = xs := List.filter_eq_self.mpr fun y hy => by simp [hx y hy]
    rw [← hself]
    exact h.filter _
  unfold Table.resume Table.resumeAt
  split
  · split
    · exact h
    · exact hremove.trans (sublist_insertSeq _ _ _)
  · exact hremove

theorem waitersOf_nodup (h : s.Sound strict) : ((s.waitersOf p).map Prod.fst).Nodup := by
  unfold waitersOf
  split
  · rw [List.map_reverse, List.nodup_reverse]
    exact h.queue_nodup.sublist (List.filter_sublist.map _)
  · exact List.nodup_nil

omit [LinearOrder Priority] in
theorem waitersOf_subset : s.waitersOf p ⊆ s.queue := by
  intro x hx
  unfold waitersOf at hx
  split at hx
  · exact (List.mem_filter.mp (List.mem_reverse.mp hx)).1
  · exact absurd hx List.not_mem_nil

/-- A release makes nobody wait. -/
theorem mem_unlock_queue {q : LockPtr} (hq : q ∈ (s.unlock p).queue.map Prod.fst) :
    q ∈ s.queue.map Prod.fst := by
  -- Nobody is in the queue who has not been there, or in the rest of the loop
  have hfoldl : ∀ (visits : List (LockPtr × Pending Index Priority InProgress))
      (s : Table Index Priority InProgress),
      q ∈ (visits.foldl (visit p) s).queue.map Prod.fst →
      q ∈ s.queue.map Prod.fst ∨ q ∈ visits.map Prod.fst := by
    intro visits
    induction visits with
    | nil => exact fun s hq => Or.inl hq
    | cons x visits ih =>
        intro s hq
        rw [List.map_cons, List.mem_cons]
        rcases ih _ hq with hq | hq
        · by_cases hqx : q = x.1
          · exact Or.inr (Or.inl hqx)
          · obtain ⟨y, hy, rfl⟩ := List.mem_map.mp hq
            have hy := (mem_resume_queue hqx).mp hy
            rw [truncate_queue] at hy
            exact Or.inl (List.mem_map_of_mem hy)
        · exact Or.inr (Or.inr hq)
  have hdequeue : ∀ y ∈ (s.dequeue p).queue, y ∈ s.queue := fun y hy => (List.mem_filter.mp hy).1
  rw [unlock, forget_queue] at hq
  rcases hfoldl _ _ hq with hq | hq
  · obtain ⟨y, hy, rfl⟩ := List.mem_map.mp hq
    exact List.mem_map_of_mem (hdequeue y hy)
  · obtain ⟨y, hy, rfl⟩ := List.mem_map.mp hq
    exact List.mem_map_of_mem (hdequeue y (waitersOf_subset hy))

/-- The lock itself, if it waits, stands behind its region. -/
theorem Sound.waitersOf_dequeue (h : s.Sound strict) {l : Lock Index} (hl : s.locks p = some l) :
    (s.dequeue p).waitersOf p =
      (s.queue.filter fun x => l.start ≤ x.2.range.start ∧ x.2.range.start < l.pos).reverse := by
  have hldeq : (s.dequeue p).locks p = some l := hl
  have hqueue : (s.dequeue p).queue = s.queue.filter fun x => x.1 ≠ p := rfl
  simp only [waitersOf, hldeq, hqueue, List.filter_filter]
  apply congrArg List.reverse
  apply List.filter_congr
  intro x hx
  by_cases hxp : x.1 = p
  · obtain ⟨l', hl', hrange, -, -⟩ := h.exists_lock hx
    rw [hxp] at hl'
    obtain rfl := Option.some.inj (hl.symm.trans hl')
    simp [hrange]
  · simp [hxp]

end Table

namespace System
variable {misuse strict : Prop} {accepts : LockPtr → Range Index → Prop}
  {σ σ' : System Index Priority InProgress} {core : Addr} {p q : LockPtr} {start : Index}
  {s : Table Index Priority InProgress} {x y : LockPtr × Pending Index Priority InProgress}
  {done visits : List (LockPtr × Pending Index Priority InProgress)}

/-- The waiter `x` is resumed with these tables: it is as in `s`, and what is left of `p` lies in
front of it. -/
structure Seen (strict : Prop) (core : Addr) (p : LockPtr) (start : Index)
    (s : Table Index Priority InProgress) (x : LockPtr × Pending Index Priority InProgress)
    (event : LockPtr × Tables Index Priority InProgress) : Prop where
  lock : event.1 = x.1
  sound : ∀ c, (event.2 c).Sound strict
  mem_queue : x ∈ (event.2 core).queue
  locks : (event.2 core).locks x.1 = s.locks x.1
  region : ∃ l, (event.2 core).locks p = some l ∧ l.start = start ∧
    l.held = if x.2.range.start = start then none else some x.2.range.start

/-- The loop that releases `p` has begun with the table `s`, has visited `done`, and has still to
visit `visits`. -/
structure Visited (strict : Prop) (core : Addr) (p : LockPtr) (start : Index)
    (s : Table Index Priority InProgress)
    (done visits : List (LockPtr × Pending Index Priority InProgress))
    (σ : System Index Priority InProgress) : Prop where
  split : s.waitersOf p = done ++ visits
  own : ∃ l, (σ.tables core).locks p = some l ∧ l.start = start
  seen : List.Forall₂ (Seen strict core p start s) done (resumings σ.log).reverse
  locks : ∀ q, q ≠ p → q ∉ done.map Prod.fst → (σ.tables core).locks q = s.locks q
  queue : ∀ x, x.1 ∉ done.map Prod.fst → (x ∈ (σ.tables core).queue ↔ x ∈ s.queue)
  order : (s.queue.filter fun x => x.1 ∉ (s.waitersOf p).map Prod.fst).Sublist (σ.tables core).queue
  /-- Who has been visited is as that visit left him. -/
  left : ∀ x ∈ done, ∃ tables, (x.1, tables) ∈ resumings σ.log ∧
    Seen strict core p start s x (x.1, tables) ∧
    (σ.tables core).locks x.1 = ((tables core).resume x).locks x.1 ∧
    ∀ w, (x.1, w) ∈ (σ.tables core).queue ↔ (x.1, w) ∈ ((tables core).resume x).queue

theorem resumings_visit :
    resumings (σ.visit core p x).log = (x.1, σ.shrunk core p x) :: resumings σ.log := by
  cases hfirst : (σ.shrunk core p x core).firstConflict x.1 x.2.range with
  | some i =>
      rw [visit_log_some hfirst]
      rfl
  | none =>
      rw [visit_log_none hfirst]
      rfl

theorem Visited.nodup (h : Visited strict core p start s done visits σ) (hs : s.Sound strict) :
    ((done ++ visits).map Prod.fst).Nodup := by
  rw [← h.split]
  exact Table.waitersOf_nodup hs

/-- The table at the moment of the next visit. -/
theorem Visited.seen_next (h : Visited strict core p start s done (x :: visits) σ)
    (hs : s.Sound strict) (hrel : Releasing strict core p (x :: visits) σ.tables) :
    Seen strict core p start s x (x.1, σ.shrunk core p x) := by
  have hnodup := h.nodup hs
  rw [List.map_append, List.nodup_append, List.map_cons] at hnodup
  have hnot : x.1 ∉ done.map Prod.fst := fun hmem => hnodup.2.2 x.1 hmem x.1 (by simp) rfl
  have hxp : x.1 ≠ p := fun heq =>
    hrel.table.not_waiting (heq ▸ List.mem_map_of_mem hrel.table.mem_queue)
  obtain ⟨l, hl, hstart⟩ := h.own
  have hlocks : ∀ q, (σ.shrunk core p x core).locks q = if q = p then
      some { l with held := l.held.bind fun _ =>
        if x.2.range.start = l.start then none else some x.2.range.start }
      else (σ.tables core).locks q := by
    intro q
    rw [shrunk_self]
    exact Table.truncate_locks hl
  refine ⟨rfl, hrel.shrunk_sound, ?_, ?_, ?_⟩
  · rw [shrunk_queue]
    exact hrel.table.mem_queue
  · rw [hlocks, if_neg hxp]
    exact h.locks x.1 hxp hnot
  · refine ⟨_, (hlocks p).trans (if_pos rfl), hstart, ?_⟩
    rw [← hstart]
    cases hheld : l.held with
    | some e => rfl
    | none =>
        -- The region has gone, so the waiter stands where it began
        obtain ⟨l', hl', hregion⟩ := hrel.table.region
        obtain rfl := Option.some.inj (hl.symm.trans hl')
        obtain ⟨hle, hpos⟩ := hregion x (by simp)
        have heq : x.2.range.start = l.start := by
          apply le_antisymm _ hle
          simpa [Lock.pos, hheld] using hpos
        simp [heq]

theorem Visited.visit (h : Visited strict core p start s done (x :: visits) σ) (hs : s.Sound strict)
    (hp : p ∉ s.queue.map Prod.fst) (hrel : Releasing strict core p (x :: visits) σ.tables) :
    Visited strict core p start s (done ++ [x]) visits (σ.visit core p x) := by
  have hseen := h.seen_next hs hrel
  have hnodup := h.nodup hs
  rw [List.map_append, List.nodup_append, List.map_cons, List.nodup_cons] at hnodup
  have hxp : x.1 ≠ p := fun heq =>
    hrel.table.not_waiting (heq ▸ List.mem_map_of_mem hrel.table.mem_queue)
  have htable : (σ.visit core p x).tables core = (σ.shrunk core p x core).resume x := by
    rw [visit_tables_shrunk, Function.update_self]
  have hshrunk : ∀ q, q ≠ p → (σ.shrunk core p x core).locks q = (σ.tables core).locks q := by
    intro q hq
    obtain ⟨l, hl, -⟩ := h.own
    rw [shrunk_self, Table.truncate_locks hl, if_neg hq]
  have hmem_done : ∀ q, q ∉ (done ++ [x]).map Prod.fst ↔ q ∉ done.map Prod.fst ∧ q ≠ x.1 := by
    intro q
    simp [not_or]
  refine ⟨?_, ?_, ?_, ?_, ?_, ?_, ?_⟩
  · rw [h.split, List.append_assoc]
    rfl
  · obtain ⟨l, hl, hstart, -⟩ := hseen.region
    rw [htable, Table.resume_locks_of_ne (Ne.symm hxp)]
    exact ⟨l, hl, hstart⟩
  · rw [resumings_visit, List.reverse_cons]
    exact List.rel_append h.seen (List.Forall₂.cons hseen List.Forall₂.nil)
  · intro q hqp hq
    obtain ⟨hq, hqx⟩ := (hmem_done q).mp hq
    rw [htable, Table.resume_locks_of_ne hqx, hshrunk q hqp]
    exact h.locks q hqp hq
  · intro y hy
    obtain ⟨hy, hyx⟩ := (hmem_done y.1).mp hy
    rw [htable, Table.mem_resume_queue hyx, shrunk_queue]
    exact h.queue y hy
  · rw [htable]
    apply Table.resume_queue_sublist
    · rw [shrunk_queue]
      exact h.order
    · intro y hy hyx
      have hnot := (List.mem_filter.mp hy).2
      rw [h.split, decide_eq_true_eq, hyx] at hnot
      apply hnot
      simp
  · intro y hy
    rcases List.mem_append.mp hy with hy | hy
    · obtain ⟨tables, hmem, hseen', hlocks, hqueue⟩ := h.left y hy
      have hyx : y.1 ≠ x.1 := hnodup.2.2 y.1 (List.mem_map_of_mem hy) x.1 (by simp)
      have hyp : y.1 ≠ p := by
        intro heq
        have hmem : y ∈ s.waitersOf p := by
          rw [h.split]
          exact List.mem_append_left _ hy
        exact hp (heq ▸ List.mem_map_of_mem (Table.waitersOf_subset hmem))
      refine ⟨tables, ?_, hseen', ?_, fun w => ?_⟩
      · rw [resumings_visit]
        exact List.mem_cons_of_mem _ hmem
      · rw [htable, Table.resume_locks_of_ne hyx, hshrunk _ hyp, hlocks]
      · rw [htable, Table.mem_resume_queue (y := (y.1, w)) hyx, shrunk_queue]
        exact hqueue w
    · obtain rfl := List.mem_singleton.mp hy
      refine ⟨σ.shrunk core p y, ?_, hseen, by rw [htable], fun w => by rw [htable]⟩
      rw [resumings_visit]
      exact List.mem_cons_self

/-- The same tables, with an empty log. -/
def fresh (σ : System Index Priority InProgress) : System Index Priority InProgress :=
  ⟨σ.tables, []⟩

/-- After an unlock call no core has claimed the lock. -/
theorem unlock_not_inUse (hgood : Good strict σ.tables) {l : Lock Index}
    (hl : (σ.tables core).locks p = some l) : ¬ InUse (σ.unlock core p).tables p := by
  intro hused
  obtain ⟨c, l', hl'⟩ := hused
  rw [unlock_tables] at hl'
  by_cases hc : c = core
  · rw [hc, Function.update_self, Table.unlock_locks_self] at hl'
    cases hl'
  · rw [Function.update_of_ne hc] at hl'
    exact hc (hgood.apart c core p l' l hl' hl)

theorem unlock_good (hgood : Good strict σ.tables) {l : Lock Index}
    (hl : (σ.tables core).locks p = some l) : Good strict (σ.unlock core p).tables := by
  have hstep : Step False (Table.Admissible strict) σ _ := .unlock core p hl
  have hgood' : Good strict ((σ.unlock core p).returned _ _).tables :=
    hstep.good (fun _ _ h => h) hgood
  exact hgood'

/-- What the loop has done at its end. -/
theorem Visited.unlock (hgood : Good strict σ.tables) {l : Lock Index}
    (hl : (σ.tables core).locks p = some l) :
    ∃ σ', Visited strict core p l.start ((σ.tables core).dequeue p)
        (((σ.tables core).dequeue p).waitersOf p) [] σ' ∧
      Releasing strict core p [] σ'.tables ∧
      σ.fresh.unlock core p = σ'.put core ((σ'.tables core).forget p) := by
  set s := (σ.tables core).dequeue p with hs
  set σ₀ := σ.fresh.put core s with hσ₀
  have hsound : s.Sound strict := (hgood.quiet core).toSound.dequeue p
  have hp := Table.not_mem_dequeue (σ.tables core) p
  have hrel : Releasing strict core p (s.waitersOf p) σ₀.tables := Releasing.init hgood hl
  have htable : σ₀.tables core = s := Function.update_self _ _ _
  have hstart : Visited strict core p l.start s [] (s.waitersOf p) σ₀ := by
    refine ⟨rfl, ⟨l, by rw [htable]; exact hl, rfl⟩, List.Forall₂.nil, ?_, ?_, ?_, ?_⟩
    · intro q _ _
      rw [htable]
    · intro x _
      rw [htable]
    · rw [htable]
      exact List.filter_sublist
    · intro x hx
      exact absurd hx List.not_mem_nil
  have hfinal := release_induction
    (motive := fun visits σ => Releasing strict core p visits σ.tables ∧
      ∃ done, Visited strict core p l.start s done visits σ)
    (fun x visits σ hrel h => ⟨hrel.visit, _, h.2.choose_spec.visit hsound hp hrel⟩) hrel
    ⟨hrel, _, hstart⟩
  obtain ⟨hreleasing, done, hdone⟩ := hfinal
  have hsplit := hdone.split
  rw [List.append_nil] at hsplit
  rw [← hsplit] at hdone
  refine ⟨_, hdone, hreleasing, ?_⟩
  rw [System.unlock, ← htable]
  rfl

end System

/-! ## The loop in memory -/

/-- The waiter `x` is resumed while the store is this one: it is linked in `pendings` as it was, and
what is left of `p` is the region from `start` to its index. -/
structure Store.Visit (core : Addr) (p : LockPtr) (start : Index)
    (x : LockPtr × Pending Index Priority InProgress)
    (event : LockPtr × Store Index Priority InProgress) : Prop where
  lock : event.1 = x.1
  linked : ∃ seq, event.2.Queue core seq ∧ x ∈ seq
  live : event.2.parent p = some core
  region : event.2.region p =
    if x.2.range.start = start then none else some ⟨start, x.2.range.start⟩

/-- `a` has a better claim than `b` to be tried first: a higher index, a higher priority, or a
longer wait. -/
def Precedes (log : Log Index Priority InProgress)
    (a b : LockPtr × Pending Index Priority InProgress) : Prop :=
  b.2.range.start < a.2.range.start ∨ b.2.range.start = a.2.range.start ∧
    (b.2.priority < a.2.priority ∨ b.2.priority = a.2.priority ∧
      Longer (Store.WaitsAt a.2.range.start) a.1 b.1 log)

/-- The same memory, with nothing seen yet. -/
def World.fresh (world : World Index Priority InProgress) : World Index Priority InProgress :=
  ⟨world.store, []⟩

section Reachable
variable {debug : Bool} {misuse : Prop} {world : World Index Priority InProgress}
  {σ : System Index Priority InProgress} {tables : Tables Index Priority InProgress}
  {store : Store Index Priority InProgress} {core : Addr} {p : LockPtr} {start : Index}
  {s : Table Index Priority InProgress} {x : LockPtr × Pending Index Priority InProgress}

theorem forall₂_of_forall₂ {α β γ : Type} {R : α → β → Prop} {S : γ → β → Prop} {T : α → γ → Prop}
    {xs : List α} {ys : List β} {zs : List γ} (hR : List.Forall₂ R xs ys)
    (hS : List.Forall₂ S zs ys)
    (hT : ∀ x y z, R x y → S z y → T x z) : List.Forall₂ T xs zs := by
  induction hR generalizing zs with
  | nil =>
      cases hS
      exact List.Forall₂.nil
  | cons hxy _ ih =>
      cases hS with
      | cons hzy hS => exact List.Forall₂.cons (hT _ _ _ hxy hzy) (ih hS)

theorem SameLogWith.resumings {log : Log Index Priority InProgress}
    {log' : List (Event Index Priority InProgress (Tables Index Priority InProgress))}
    (h : SameLog log log') :
    List.Forall₂ (fun e e' => e.1 = e'.1 ∧ Models e'.2 e.2) (resumings log) (resumings log') := by
  induction h with
  | nil => exact List.Forall₂.nil
  | cons hevent _ ih =>
      cases hevent with
      | resuming lock hmodels => exact List.Forall₂.cons ⟨rfl, hmodels⟩ ih
      | _ => exact ih

theorem SameLogWith.exists_resuming {log : Log Index Priority InProgress}
    {log' : List (Event Index Priority InProgress (Tables Index Priority InProgress))}
    (h : SameLog log log') (htables : (p, tables) ∈ Core.resumings log') :
    ∃ store, (p, store) ∈ Core.resumings log ∧ Models tables store := by
  induction h with
  | nil => cases htables
  | cons hevent _ ih =>
      cases hevent with
      | @resuming lock store _ hmodels =>
          rcases List.mem_cons.mp htables with heq | htables
          · obtain ⟨rfl, rfl⟩ := Prod.mk.inj heq
            exact ⟨store, List.mem_cons_self, hmodels⟩
          · obtain ⟨store', hstore', hmodels'⟩ := ih htables
            exact ⟨store', List.mem_cons_of_mem _ hstore', hmodels'⟩
      | _ => exact ih htables

/-- The waiters stand in the queue in the reverse order of their claims. -/
theorem World.Run.precedes (run : World.Run debug misuse Nonempty world)
    {queue : List (LockPtr × Pending Index Priority InProgress)}
    (hqueue : world.store.Queue core queue) :
    queue.Pairwise fun b a => Precedes world.log a b := by
  obtain ⟨σ, hσ, hrun, hgood⟩ := run.system
  obtain rfl := hσ.models.queue_iff.mp hqueue
  have haged := (hrun.aged admissible_of_nonempty).1 core
  refine ((hgood.quiet core).sorted.and haged).imp ?_
  intro b a hab
  obtain ⟨hle, hage⟩ := hab
  rcases hle with hlt | ⟨hstart, hprio⟩
  · exact Or.inl hlt
  · refine Or.inr ⟨hstart, ?_⟩
    rcases lt_or_eq_of_le hprio with hlt | heq
    · exact Or.inl hlt
    · refine Or.inr ⟨heq, ?_⟩
      rw [← hstart, hσ.log.longer_iff]
      exact hage hstart heq

theorem Seen.visit {e : LockPtr × Store Index Priority InProgress}
    {e' : LockPtr × Tables Index Priority InProgress}
    (h : System.Seen True core p start s x e') (he : e.1 = e'.1) (hmodels : Models e'.2 e.2) :
    Store.Visit core p start x e := by
  obtain ⟨l, hl, hstart, hheld⟩ := h.region
  refine ⟨he.trans h.lock, ⟨_, hmodels.queue core, h.mem_queue⟩, hmodels.live_iff.mpr ⟨l, hl⟩, ?_⟩
  rw [hmodels.region_eq hl, hheld, hstart]
  split <;> rfl

/-- The loop of an unlock call passes to `resume_borrow` the waiters that stand inside the region
when it begins, each once, from the highest index down and at one index by their claims.  It ends,
and leaves no node of the lock. -/
theorem World.Run.release_visits (run : World.Run debug misuse Nonempty world) (core : Addr)
    (p : LockPtr) (region : Range Index) (hparent : world.store.parent p = some core)
    (hregion : world.store.region p = some region) :
    ∃ reply w queue visits, Call.perform debug (.unlock core p) world.fresh = .ok reply w ∧
      world.store.Queue core queue ∧
      visits = (queue.filter fun x =>
        region.start ≤ x.2.range.start ∧ x.2.range.start < region.stop).reverse ∧
      List.Forall₂ (Store.Visit core p region.start) visits (resumings w.log).reverse ∧
      (visits.map Prod.fst).Nodup ∧ visits.Pairwise (Precedes world.log) ∧
      w.store.NoNodes p ∧ w.store.waiter p = none := by
  obtain ⟨σ, hσ, hrun, hgood⟩ := run.system
  obtain ⟨l, hl⟩ := hσ.models.exists_lock hparent
  rw [hσ.models.region_eq hl] at hregion
  obtain ⟨e, hheld, rfl⟩ := Option.map_eq_some_iff.mp hregion
  have hfresh : Simulates world.fresh σ.fresh := ⟨hσ.models, List.Forall₂.nil⟩
  have hreturns : Runs (Call.perform debug (.unlock core p)) world.fresh _ :=
    unlock_returns hfresh hgood (fun _ => trivial) core p hl
  obtain ⟨reply, w, hperform, hw, -⟩ := hreturns
  obtain ⟨σ', hvisited, hreleasing, hunlock⟩ := System.Visited.unlock hgood hl
  have hsound := (hgood.quiet core).toSound
  have hlog : SameLog w.log σ'.log := by
    have hlog := hw.log
    rwa [hunlock] at hlog
  have hunused : ¬ InUse (σ.fresh.unlock core p).tables p := System.unlock_not_inUse hgood hl
  have hgood' : Good True (σ.fresh.unlock core p).tables := System.unlock_good hgood hl
  have hvisits := hsound.waitersOf_dequeue hl
  have hpos : l.pos = e := by rw [Lock.pos, hheld, Option.getD_some]
  rw [hpos] at hvisits
  refine ⟨reply, w, _, _, hperform, hσ.models.queue core, hvisits, ?_, ?_, ?_, ?_, ?_⟩
  · refine forall₂_of_forall₂ hvisited.seen (List.forall₂_reverse_iff.mpr hlog.resumings) ?_
    intro x e' e hseen he
    exact Seen.visit hseen he.1 he.2
  · exact Table.waitersOf_nodup (hsound.dequeue p)
  · rw [hvisits, List.pairwise_reverse]
    exact (run.precedes (hσ.models.queue core)).sublist List.filter_sublist
  · exact hw.models.noNodes fun c l hl => absurd ⟨c, l, hl⟩ hunused
  · exact hw.models.waiter_eq_none (hgood'.not_queued hunused)

/-- Three locks wait for a writer. -/
def crowd : List (Call ℕ ℕ ℕ) := handover.take 4

theorem crowd_run (misuse : Prop) : World.Run true misuse Nonempty (World.after true crowd) := by
  refine World.run_after (fun call hcall => ?_) (by decide +kernel)
  simp only [crowd, handover, List.take_succ_cons, List.take_zero, List.mem_cons, List.not_mem_nil,
    or_false] at hcall
  rcases hcall with rfl | rfl | rfl | rfl
  · exact (by decide : 0 < 10)
  · exact (by decide : 5 < 15)
  · exact (by decide : 5 < 20)
  · exact (by decide : 5 < 15)

theorem release_visits_crowd : ∃ reply w queue visits,
    Call.perform true (.unlock (slot 0) (lockPtr true (slot 1))) (World.after true crowd).fresh =
      .ok reply w ∧
    (World.after true crowd).store.Queue (slot 0) queue ∧
    visits = (queue.filter fun x => 0 ≤ x.2.range.start ∧ x.2.range.start < 10).reverse ∧
    List.Forall₂ (Store.Visit (slot 0) (lockPtr true (slot 1)) 0) visits (resumings w.log).reverse ∧
    (visits.map Prod.fst).Nodup ∧ visits.Pairwise (Precedes (World.after true crowd).log) ∧
    w.store.NoNodes (lockPtr true (slot 1)) ∧ w.store.waiter (lockPtr true (slot 1)) = none :=
  (crowd_run False).release_visits (slot 0) (lockPtr true (slot 1)) ⟨0, 10⟩ (by decide +kernel)
    (by decide +kernel)

end Reachable

end Interlock.Core
