import Interlock.Core.Objects

/-!
# Lifetimes

Which steps keep up the protection of the objects that exist.

The invariant is `Objects.Kept`: the memory is modelled by tables of the cores that exist, besides
lock states that have gone astray, whose cores do not exist any more.  Every orderly step keeps it.
A call keeps it by the results on calls with any ranges.  When a core is destroyed, its locks go
astray (`abandon`), and no orderly step creates a core where they point to.  When a lock state is
destroyed, it is free or has gone astray, so that no tree links its nodes.

A step that is not orderly destroys the protection at once.  Either a new core accepts a lock state
that another one has locked, or the trees of a core link the nodes of a lock state that does not
exist.  As the invariant gives protection, a step keeps it up if and only if it is orderly.  If all
destructors return without a panic, no step is disorderly.
-/

namespace Interlock.Core

open Memory RbTree

variable {Index Priority InProgress : Type}

section Steps
variable [LinearOrder Index] [LinearOrder Priority] {debug : Bool}
  {s s' : Objects Index Priority InProgress} {a : Action Index Priority InProgress}

/-- A call on objects that exist. -/
theorem Objects.Kept.call (h : s.Kept debug) {call : Call Index Priority InProgress}
    (hcore : s.cores call.core ≠ none) (hstate : s.states call.state ≠ none) :
    ∃ s', s.perform debug call = some s' ∧ s'.Kept debug ∧ s'.cores = s.cores ∧
      ∀ p c, s'.store.parent p = some c → c = call.core ∨ s.store.parent p = some c := by
  obtain ⟨stray, tables, hmodels, hregular, hdead, hlive⟩ := h.modelled
  obtain ⟨n, hn⟩ := Option.ne_none_iff_exists'.mp hcore
  obtain ⟨m, hm⟩ := Option.ne_none_iff_exists'.mp hstate
  have hself : SimulatesWith stray (⟨s.store, []⟩ : World Index Priority InProgress)
      ⟨tables, []⟩ := ⟨hmodels, List.Forall₂.nil⟩
  have hstray : ∀ p, stray.parent p ≠ some call.core := by
    intro p hp
    exact hcore (hdead p _ hp)
  rcases Call.settles hself hregular call hstray with hruns | ⟨message, -, w, hperform, hstore, hw⟩
  · obtain ⟨reply, w, hperform, ⟨σ', hw, hregular', hparent⟩, -⟩ := hruns
    refine ⟨{ s with store := w.store, history := ⟨n, m, call, reply⟩ :: s.history }, ?_, ?_, rfl,
      fun p c hp => ?_⟩
    · simp only [Objects.perform, hperform, hn, hm, Option.getD_some]
    · refine ⟨⟨stray, σ'.tables, hw.models, hregular', hdead, fun c p l hl => ?_⟩, fun p hp => ?_,
        h.cores, h.states, lockedBy_cons_lt (h.cores.lt _ n hn) (h.states.lt _ m hm) h.locked_lt,
        ?_⟩
      · have htabled := hw.models.parents.stray_eq_none hl
        have hp := hw.models.parent_eq hl
        rw [hparent] at hp
        rcases call.claims_some hp with ⟨-, rfl⟩ | hp
        · exact hcore
        · obtain ⟨l', hl'⟩ := (hmodels.parents.tabled p c htabled).mp hp
          exact hlive c p l' hl'
      · obtain ⟨c, hc⟩ := Option.ne_none_iff_exists'.mp hp
        rw [hparent] at hc
        rcases call.claims_some hc with ⟨rfl, -⟩ | hc
        · exact hstate
        · exact h.claimed p fun hnone => Option.some_ne_none c (hc.symm.trans hnone)
      · intro p m' c n' hp hc
        rw [hparent]
        by_cases hps : p = call.state
        · subst hps
          obtain rfl := Option.some.inj (hm.symm.trans hp)
          refine call.claims_iff ⟨fun heq => ?_, fun heq => ?_⟩ (h.origin _ m c n' hm hc)
          · subst heq
            exact Option.some.inj (hn.symm.trans hc)
          · subst heq
            exact h.cores.inj _ _ n hn hc
        · have hmm : m ≠ m' := fun heq => hps (h.states.inj p _ m' hp (heq ▸ hm))
          rw [call.claims_of_ne hps, lockedBy_cons_of_ne hmm]
          exact h.origin p m' c n' hp hc
    · rw [hparent] at hp
      exact (call.claims_some hp).imp_left And.right
  · refine ⟨{ s with store := w.store }, by simp only [Objects.perform, hperform], ?_⟩
    rw [hstore]
    exact ⟨h, rfl, fun p c hp => Or.inr hp⟩

/-! ### Cores -/

theorem Objects.Kept.init : (Objects.init : Objects Index Priority InProgress).Kept debug := by
  refine ⟨⟨.none, fun _ => .empty, ModelsWith.init, ⟨⟨fun _ => Table.empty_idle, ?_⟩, fun _ =>
    ⟨fun _ => Table.empty_quiet, ?_⟩⟩, ?_, ?_⟩, fun p hp => absurd rfl hp, ⟨?_, ?_⟩,
      ⟨?_, ?_⟩, ?_, ?_⟩
  · intro c c' p l l' hl
    cases hl
  · intro c c' p l l' hl
    cases hl
  · intro p c hp
    cases hp
  · intro c p l hl
    cases hl
  · intro c n hn
    cases hn
  · intro c c' n hn
    cases hn
  · intro p m hm
    cases hm
  · intro p p' m hm
    cases hm
  · intro m n hn
    cases hn
  · intro p m c n hm
    cases hm

/-- The table of a core is given up. -/
theorem Objects.Kept.abandon (h : s.Kept debug) (core : Addr) :
    ∃ stray tables, ModelsWith stray tables (s.store.reset core) ∧ Regular debug tables ∧
      (∀ p c, stray.parent p = some c → c = core ∧ s.store.parent p = some core ∨
        c ≠ core ∧ s.cores c = none) ∧
      ∀ c p l, (tables c).locks p = some l → c ≠ core ∧ s.cores c ≠ none := by
  obtain ⟨stray, tables, hmodels, hregular, hdead, hlive⟩ := h.modelled
  obtain ⟨stray', hmodels', hparent⟩ :=
    hmodels.abandon (fun c => (hregular.coherent.idle c).toWellLinked) core
  have hapart : ∀ c p l l', c ≠ core → (tables c).locks p = some l →
      (Table.empty : Table Index Priority InProgress).locks p ≠ some l' := by
    intro c p l l' _ _ hl'
    cases hl'
  refine ⟨stray', _, hmodels', ⟨hregular.coherent.update Table.empty_idle hapart, fun hd =>
    (hregular.good hd).update Table.empty_quiet hapart⟩, fun p c hp => ?_, fun c p l hl => ?_⟩
  · rw [hparent] at hp
    by_cases hcore : s.store.parent p = some core
    · rw [if_pos hcore] at hp
      exact Or.inl ⟨(Option.some.inj hp).symm, hcore⟩
    · rw [if_neg hcore] at hp
      refine Or.inr ⟨?_, hdead p c hp⟩
      rintro rfl
      exact hcore ((hmodels.parents.strayed p (by simp [hp])).1.trans hp)
  · by_cases hc : c = core
    · subst hc
      rw [Function.update_self] at hl
      cases hl
    · rw [Function.update_of_ne hc] at hl
      exact ⟨hc, hlive c p l hl⟩

theorem Objects.Kept.createCore (h : s.Kept debug) {core : Addr} (hcore : s.cores core = none)
    (horderly : s.Orderly (.createCore core)) : (s.createCore core).Kept debug := by
  obtain ⟨stray, tables, hmodels, hregular, hstray, htables⟩ := h.abandon core
  have hnobody : ∀ p, s.store.parent p ≠ some core := by
    intro p hp
    exact horderly p (h.claimed p (by simp [hp])) hp
  refine ⟨⟨stray, tables, hmodels, hregular, fun p c hp => ?_, fun c p l hl => ?_⟩, h.claimed,
    h.cores.create core, h.states.succ, fun m n hn => ?_, fun p m c n hm hn => ?_⟩
  · rcases hstray p c hp with ⟨-, hparent⟩ | ⟨hne, hdead⟩
    · exact absurd hparent (hnobody p)
    · exact (Function.update_of_ne hne _ _).trans hdead
  · obtain ⟨hne, hlive⟩ := htables c p l hl
    exact fun hnone => hlive ((Function.update_of_ne hne _ _).symm.trans hnone)
  · obtain ⟨hm, hn⟩ := h.locked_lt m n hn
    exact ⟨hm.trans (Nat.lt_succ_self _), hn.trans (Nat.lt_succ_self _)⟩
  · by_cases hc : c = core
    · subst hc
      rw [Objects.createCore_cores, Function.update_self] at hn
      refine iff_of_false (hnobody p) fun hlocked => ?_
      exact (h.locked_lt m n hlocked).2.ne (Option.some.inj hn).symm
    · rw [Objects.createCore_cores, Function.update_of_ne hc] at hn
      exact h.origin p m c n hm hn

theorem Objects.Kept.destroyCore (h : s.Kept debug) (core : Addr) :
    (s.destroyCore core).Kept debug := by
  obtain ⟨stray, tables, hmodels, hregular, hstray, htables⟩ := h.abandon core
  refine ⟨⟨stray, tables, hmodels, hregular, fun p c hp => ?_, fun c p l hl => ?_⟩, h.claimed,
    h.cores.destroy core, h.states, h.locked_lt, fun p m c n hm hn => ?_⟩
  · rcases hstray p c hp with ⟨rfl, -⟩ | ⟨hne, hdead⟩
    · exact Function.update_self ..
    · exact (Function.update_of_ne hne _ _).trans hdead
  · obtain ⟨hne, hlive⟩ := htables c p l hl
    exact fun hnone => hlive ((Function.update_of_ne hne _ _).symm.trans hnone)
  · by_cases hc : c = core
    · subst hc
      rw [Objects.destroyCore_cores, Function.update_self] at hn
      cases hn
    · rw [Objects.destroyCore_cores, Function.update_of_ne hc] at hn
      exact h.origin p m c n hm hn

/-! ### Lock states -/

/-- A lock state that no core that exists has locked is cleared. -/
theorem Objects.Kept.clear (h : s.Kept debug) {p : LockPtr}
    (hp : ∀ c, s.store.parent p = some c → s.cores c = none) :
    ∃ stray tables, ModelsWith stray tables (s.store.clear p) ∧ Regular debug tables ∧
      (∀ q c, stray.parent q = some c → s.cores c = none) ∧
      ∀ c q l, (tables c).locks q = some l → s.cores c ≠ none := by
  obtain ⟨stray, tables, hmodels, hregular, hdead, hlive⟩ := h.modelled
  have hlocks : ∀ c, (tables c).locks p = none := by
    intro c
    by_contra hlocks
    obtain ⟨l, hl⟩ := Option.ne_none_iff_exists'.mp hlocks
    exact hlive c p l hl (hp c (hmodels.parent_eq hl))
  have hqueue : ∀ c, p ∉ (tables c).queue.map Prod.fst := fun c =>
    (hregular.coherent.idle c).toWellLinked.not_queued (hlocks c)
  refine ⟨_, tables, hmodels.clear hlocks hqueue, hregular, fun q c hq => ?_, hlive⟩
  by_cases hqp : q = p
  · rw [hqp, Stray.without_parent, Function.update_self] at hq
    cases hq
  · rw [Stray.without_parent, Function.update_of_ne hqp] at hq
    exact hdead q c hq

theorem Objects.Kept.createState (h : s.Kept debug) {p : LockPtr} (hp : s.states p = none) :
    (s.createState p).Kept debug := by
  have hparent : s.store.parent p = none := by
    by_contra hparent
    exact h.claimed p hparent hp
  refine ⟨h.clear fun c hc => ?_, fun q hq => ?_, h.cores.succ, h.states.create p, fun m n hn => ?_,
    fun q m c n hm hn => ?_⟩
  · rw [hparent] at hc
    cases hc
  · by_cases hqp : q = p
    · simp [hqp]
    · rw [Objects.createState_states, Function.update_of_ne hqp]
      exact h.claimed q fun hnone => hq ((Function.update_of_ne hqp _ _).trans hnone)
  · obtain ⟨hm, hn⟩ := h.locked_lt m n hn
    exact ⟨hm.trans (Nat.lt_succ_self _), hn.trans (Nat.lt_succ_self _)⟩
  · by_cases hqp : q = p
    · subst hqp
      rw [Objects.createState_states, Function.update_self] at hm
      refine iff_of_false ?_ fun hlocked => ?_
      · rw [show (s.createState q).store.parent q = none from Function.update_self ..]
        simp
      · exact (h.locked_lt m n hlocked).1.ne (Option.some.inj hm).symm
    · rw [Objects.createState_states, Function.update_of_ne hqp] at hm
      rw [show (s.createState p).store.parent q = s.store.parent q from
        Function.update_of_ne hqp _ _]
      exact h.origin q m c n hm hn

theorem Objects.Kept.destroyState (h : s.Kept debug) {p : LockPtr}
    (horderly : s.Orderly (.destroyState p)) : (s.destroyState p).Kept debug := by
  refine ⟨h.clear horderly, fun q hq => ?_, h.cores, h.states.destroy p, h.locked_lt,
    fun q m c n hm hn => ?_⟩
  · by_cases hqp : q = p
    · subst hqp
      exact absurd (Function.update_self ..) hq
    · rw [Objects.destroyState_states, Function.update_of_ne hqp]
      exact h.claimed q fun hnone => hq ((Function.update_of_ne hqp _ _).trans hnone)
  · by_cases hqp : q = p
    · rw [hqp, Objects.destroyState_states, Function.update_self] at hm
      cases hm
    · rw [Objects.destroyState_states, Function.update_of_ne hqp] at hm
      rw [show (s.destroyState p).store.parent q = s.store.parent q from
        Function.update_of_ne hqp _ _]
      exact h.origin q m c n hm hn

/-! ## Protection -/

theorem Objects.Kept.accepts_iff (h : s.Kept debug) (call : Call Index Priority InProgress)
    (hcore : s.cores call.core ≠ none) (hcall : call.ChecksOrigin) :
    s.Accepts debug call ↔ s.store.parent call.state = some call.core := by
  obtain ⟨stray, tables, hmodels, hregular, hdead, -⟩ := h.modelled
  have hself : SimulatesWith stray (⟨s.store, []⟩ : World Index Priority InProgress)
      ⟨tables, []⟩ := ⟨hmodels, List.Forall₂.nil⟩
  have hstray : ∀ p, stray.parent p ≠ some call.core := by
    intro p hp
    exact hcore (hdead p _ hp)
  have hmisfit : call.Misfit s.store.parent ↔ s.store.parent call.state ≠ some call.core := by
    cases call with
    | lock => exact hcall.elim
    | tryLock => exact hcall.elim
    | unlock => exact Iff.rfl
    | inspect => exact Iff.rfl
  constructor
  · intro haccepts
    by_contra hparent
    have hpanics : Panics (call.perform debug) (⟨s.store, []⟩ : World Index Priority InProgress)
        incorrectOrigin fun _ => True := by
      cases call with
      | lock => exact hcall.elim
      | tryLock => exact hcall.elim
      | unlock core p => exact (unlock_panics core p hparent).mono fun _ _ => trivial
      | inspect isWrite core state write =>
          exact (inspect_panics isWrite core state write hparent).mono fun _ _ => trivial
    obtain ⟨w, hperform, -⟩ := hpanics
    exact haccepts w hperform
  · intro hparent w hperform
    rcases Call.settles hself hregular call hstray with hruns | ⟨message, hcomplains, hpanics⟩
    · exact hruns.not_panics (⟨w, hperform, trivial⟩ : Panics _ _ _ fun _ => True)
    · rcases hcomplains with ⟨hmis, -⟩ | ⟨-, hempty, -⟩
      · exact hmisfit.mp hmis hparent
      · cases call with
        | lock => exact hcall.elim
        | tryLock => exact hcall.elim
        | unlock => exact hempty trivial
        | inspect => exact hempty trivial

theorem Objects.Kept.protected (h : s.Kept debug) : s.Protected debug := by
  obtain ⟨stray, tables, hmodels, hregular, -, -⟩ := h.modelled
  have hclaimed : ∀ {p c}, s.store.parent p = some c → s.states p ≠ none := by
    intro p c hp
    exact h.claimed p (by simp [hp])
  refine ⟨fun call hcall n m hn hm => ?_, fun core q _ hq => ?_, fun core q _ hq => ?_,
    fun core q _ hq => ?_⟩
  · rw [h.accepts_iff call (by simp [hn]) hcall]
    exact h.origin _ m _ n hm hn
  · obtain ⟨e, he⟩ := (Indexed.reached_iff hmodels.reads).mp hq
    obtain ⟨node, hnode, -⟩ := Indexed.get hmodels.reads he
    obtain ⟨l, -, hl, -⟩ := he
    exact ⟨hclaimed (hmodels.parent_eq hl), by simp [hnode]⟩
  · obtain ⟨e, he⟩ := (Indexed.reached_iff hmodels.writes).mp hq
    obtain ⟨node, hnode, -⟩ := Indexed.get hmodels.writes he
    obtain ⟨l, -, hl, -⟩ := he
    exact ⟨hclaimed (hmodels.parent_eq hl), by simp [hnode]⟩
  · obtain ⟨x, hx, rfl⟩ := List.mem_map.mp ((Forest.linked hmodels.pendings core).reached_iff.mp hq)
    obtain ⟨node, hnode, -⟩ := hmodels.pending_eq_some hx
    obtain ⟨-, -, l, hl, -⟩ := (hregular.coherent.idle core).queued x hx
    exact ⟨hclaimed (hmodels.parent_eq hl), by simp [hnode]⟩

/-- What an orderly step leads to. -/
theorem Objects.Kept.next (h : s.Kept debug) (hpossible : s.Possible a) (horderly : s.Orderly a) :
    ∃ s', s.next debug a = some s' ∧ s'.Kept debug := by
  unfold Objects.next
  rw [if_pos hpossible]
  cases a with
  | createCore core => exact ⟨_, rfl, h.createCore hpossible horderly⟩
  | createState p => exact ⟨_, rfl, h.createState hpossible⟩
  | destroyCore core => exact ⟨_, rfl, h.destroyCore core⟩
  | destroyState p => exact ⟨_, rfl, h.destroyState horderly⟩
  | call call =>
      obtain ⟨s', hperform, hkept, -⟩ := h.call hpossible.1 hpossible.2
      exact ⟨s', hperform, hkept⟩

/-- The new core takes the lock states of another one for its own. -/
theorem unlock_not_panics {world : World Index Priority InProgress} {core : Addr} {p : LockPtr}
    (hp : world.store.parent p = some core) {message : String}
    {post : World Index Priority InProgress → Prop} :
    ¬ Panics (Call.perform debug (.unlock core p)) world message post := by
  have hcheck : Runs (checkParent core p) world fun _ w => w = world := by
    simp only [checkParent, runs_bind, runs_getStore, hp, ne_eq, not_true_eq_false, if_false,
      runs_pure]
  have hclear : ∀ w : World Index Priority InProgress,
      ¬ Panics (setParent p none) w message post := fun w => not_panics_modify
  have hunlock : ∀ inner : LockPtr → CoreM Index Priority InProgress Unit,
      ¬ Panics (unlockWith debug core inner p) world message post := fun inner =>
    not_panics_bind hcheck.not_panics fun _ _ => not_panics_bind not_panics_abortOnUnwind
      fun _ w => not_panics_bind (hclear w) fun _ _ => not_panics_pure
  have hunlockTry : ∀ inner : LockPtr → CoreM Index Priority InProgress Unit,
      ¬ Panics (unlockTryWith core inner p) world message post := fun inner =>
    not_panics_bind hcheck.not_panics fun _ _ => not_panics_bind not_panics_abortOnUnwind
      fun _ w => hclear w
  obtain ⟨kind, state⟩ := p
  cases kind with
  | read => exact not_panics_bind (hunlock _) fun _ _ => not_panics_pure
  | write => exact not_panics_bind (hunlock _) fun _ _ => not_panics_pure
  | tryRead => exact not_panics_bind (hunlockTry _) fun _ _ => not_panics_pure
  | tryWrite => exact not_panics_bind (hunlockTry _) fun _ _ => not_panics_pure

theorem Objects.Kept.not_protected_createCore (h : s.Kept debug) {core : Addr} {p : LockPtr}
    (hp : s.states p ≠ none) (hparent : s.store.parent p = some core) :
    ¬ (s.createCore core).Protected debug := by
  intro hprotected
  obtain ⟨m, hm⟩ := Option.ne_none_iff_exists'.mp hp
  have haccepts : (s.createCore core).Accepts debug (.unlock core p) := by
    intro w hw
    have hpanics : Panics (Call.perform debug (.unlock core p))
        (⟨(s.createCore core).store, []⟩ : World Index Priority InProgress) incorrectOrigin
        fun _ => True := ⟨w, hw, trivial⟩
    exact unlock_not_panics hparent hpanics
  have hlocked := (hprotected.origin (.unlock core p) trivial s.created m
    (Function.update_self ..) hm).mp haccepts
  exact (h.locked_lt m s.created hlocked).2.ne rfl

/-- The node of a lock state that has been locked, or another one in it, is linked still. -/
theorem Objects.Kept.not_protected_destroyState (h : s.Kept debug) {core : Addr} {p : LockPtr}
    (hcore : s.cores core ≠ none) (hparent : s.store.parent p = some core) :
    ¬ (s.destroyState p).Protected debug := by
  intro hprotected
  obtain ⟨stray, tables, hmodels, hregular, hdead, -⟩ := h.modelled
  obtain ⟨l, hl⟩ := hmodels.tabled (fun q hq => hcore (hdead q core hq)) hparent
  by_cases hqueue : p ∈ (tables core).queue.map Prod.fst
  · have hreached : Reached (s.store.pendingTree core) p :=
      (Forest.linked hmodels.pendings core).reached_iff.mpr hqueue
    have hsome : ((s.store.pending.free p).get p).isSome :=
      (hprotected.pendings core p hcore hreached.free).2
    rw [Heap.get_free_self] at hsome
    cases hsome
  · obtain ⟨e, hheld⟩ := Option.ne_none_iff_exists'.mp
      ((hregular.coherent.idle core).settled p l hl hqueue)
    cases hkind : p.kind.isWrite with
    | true =>
        have hreached : Reached (s.store.writeTree core) p :=
          (Indexed.reached_iff hmodels.writes).mpr ⟨_, Table.writeEntry_self hl hkind hheld⟩
        have hsome : ((s.store.write.free p).get p).isSome :=
          (hprotected.writes core p hcore hreached.free).2
        rw [Heap.get_free_self] at hsome
        cases hsome
    | false =>
        have hreached : Reached (s.store.readTree core) (p, true) :=
          (Indexed.reached_iff hmodels.reads).mpr ⟨_, (Table.readEntry_self hl hkind hheld).2⟩
        have hagree : Heap.AgreeOff [(p, false), (p, true)] s.store.read
            ((s.store.read.free (p, false)).free (p, true)) := by
          intro q hq
          simp only [List.mem_cons, List.not_mem_nil, or_false, not_or] at hq
          rw [Heap.get_free_ne _ hq.2, Heap.get_free_ne _ hq.1]
        have hcases : Reached ((s.destroyState p).store.readTree core) (p, true) ∨
            ∃ q ∈ [(p, false), (p, true)], Reached ((s.destroyState p).store.readTree core) q :=
          hreached.agree rfl hagree
        obtain ⟨side, hfreed⟩ : ∃ side,
            Reached ((s.destroyState p).store.readTree core) (p, side) := by
          rcases hcases with hp | ⟨q, hq, hreached⟩
          · exact ⟨true, hp⟩
          · simp only [List.mem_cons, List.not_mem_nil, or_false] at hq
            rcases hq with rfl | rfl
            · exact ⟨false, hreached⟩
            · exact ⟨true, hreached⟩
        have hsome : (((s.store.read.free (p, false)).free (p, true)).get (p, side)).isSome :=
          (hprotected.reads core (p, side) hcore hfreed).2
        cases side with
        | true =>
            rw [Heap.get_free_self] at hsome
            cases hsome
        | false =>
            rw [Heap.get_free_ne _ (by simp), Heap.get_free_self] at hsome
            cases hsome

/-! ## Runs -/

theorem Objects.possible_of_next (h : s.next debug a = some s') : s.Possible a := by
  unfold Objects.next at h
  split at h
  · assumption
  · cases h

theorem Objects.Run.kept (run : Objects.Run debug (fun s a => s.Orderly a) s) : s.Kept debug := by
  induction run with
  | init => exact .init
  | step _ horderly hnext ih =>
      obtain ⟨s'', hnext', hkept⟩ := ih.next (Objects.possible_of_next hnext) horderly
      obtain rfl := Option.some.inj (hnext.symm.trans hnext')
      exact hkept

/-- As long as all steps are orderly, the objects are protected, and no step stops other than by
returning or panicking.  The next step keeps up the protection if and only if it is orderly, too. -/
theorem Objects.Run.protected_iff (run : Objects.Run debug (fun s a => s.Orderly a) s) :
    s.Protected debug ∧ ∀ a, s.Possible a → ∃ s', s.next debug a = some s' ∧
      (s'.Protected debug ↔ s.Orderly a) := by
  have hkept := run.kept
  refine ⟨hkept.protected, fun a hpossible => ?_⟩
  by_cases horderly : s.Orderly a
  · obtain ⟨s', hnext, hkept'⟩ := hkept.next hpossible horderly
    exact ⟨s', hnext, iff_of_true hkept'.protected horderly⟩
  · unfold Objects.next
    rw [if_pos hpossible]
    cases a with
    | createCore core =>
        refine ⟨_, rfl, iff_of_false ?_ horderly⟩
        simp only [Objects.Orderly, not_forall, not_not] at horderly
        obtain ⟨p, hp, hparent⟩ := horderly
        exact hkept.not_protected_createCore hp hparent
    | destroyState p =>
        refine ⟨_, rfl, iff_of_false ?_ horderly⟩
        simp only [Objects.Orderly, not_forall] at horderly
        obtain ⟨core, hparent, hcore⟩ := horderly
        exact hkept.not_protected_destroyState hcore hparent
    | createState p => exact absurd trivial horderly
    | destroyCore core => exact absurd trivial horderly
    | call call => exact absurd trivial horderly

/-! ### Destructors that return -/

omit [LinearOrder Index] [LinearOrder Priority] in
theorem drop_returns_iff {world : World Index Priority InProgress} {core : Addr} :
    (∃ w, drop core world = .ok () w) ↔ (world.store.cores core).locked = false := by
  cases hlocked : (world.store.cores core).locked with
  | false => exact iff_of_true ⟨world, drop_ok hlocked⟩ rfl
  | true =>
      refine iff_of_false ?_ (by simp)
      rintro ⟨w, hw⟩
      obtain ⟨message, hpanics⟩ := drop_panics hlocked
      rw [hw] at hpanics
      cases hpanics

omit [LinearOrder Index] [LinearOrder Priority] in
theorem earlyDrop_returns_iff {world : World Index Priority InProgress} {p : LockPtr} :
    (∃ w, earlyDrop p world = .ok () w) ↔ world.store.parent p = none := by
  have hruns : (∃ w, earlyDrop p world = .ok () w) ↔ Runs (earlyDrop p) world fun _ _ => True := by
    constructor
    · rintro ⟨w, hw⟩
      exact ⟨(), w, hw, trivial⟩
    · rintro ⟨_, w, hw, -⟩
      exact ⟨w, hw⟩
  rw [hruns]
  cases hp : world.store.parent p with
  | none => simp [earlyDrop, hp]
  | some c => simp [earlyDrop, hp]

/-- A core whose destructor returns has no lock states. -/
theorem Objects.Kept.parent_ne_of_unlocked (h : s.Kept debug) {core : Addr}
    (hcore : s.cores core ≠ none) (hunlocked : (s.store.cores core).locked = false) (p : LockPtr) :
    s.store.parent p ≠ some core := by
  intro hp
  obtain ⟨stray, tables, hmodels, hregular, hdead, -⟩ := h.modelled
  have hlocks := (hmodels.roots_eq_none_iff (hregular.coherent.idle core)).mp
    ((Roots.locked_eq_false _).mp hunlocked)
  obtain ⟨l, hl⟩ := hmodels.tabled (fun q hq => hcore (hdead q core hq)) hp
  rw [hlocks] at hl
  cases hl

omit [LinearOrder Index] [LinearOrder Priority] in
theorem Objects.orderly_of_silent (hlive : ∀ p c, s.store.parent p = some c → s.cores c ≠ none)
    (hpossible : s.Possible a) (hsilent : s.Silent a) : s.Orderly a := by
  cases a with
  | createCore core => exact fun p _ hp => hlive p core hp hpossible
  | destroyState p =>
      intro core hp
      rw [earlyDrop_returns_iff.mp hsilent] at hp
      cases hp
  | createState p => trivial
  | destroyCore core => trivial
  | call call => trivial

/-- If no destructor panics, all steps are orderly, and no lock state points to a core that does not
exist. -/
theorem Objects.Run.orderly (run : Objects.Run debug (fun s a => s.Silent a) s) :
    Objects.Run debug (fun s a => s.Orderly a) s ∧
      ∀ p c, s.store.parent p = some c → s.cores c ≠ none := by
  induction run with
  | init =>
      refine ⟨.init, fun p c hp => ?_⟩
      cases hp
  | @step s s' a _ hsilent hnext ih =>
      obtain ⟨run, hlive⟩ := ih
      have hkept := run.kept
      have hpossible := Objects.possible_of_next hnext
      have horderly := Objects.orderly_of_silent hlive hpossible hsilent
      refine ⟨run.step horderly hnext, fun p c hp => ?_⟩
      unfold Objects.next at hnext
      rw [if_pos hpossible] at hnext
      cases a with
      | createCore core =>
          obtain rfl := Option.some.inj hnext
          by_cases hc : c = core
          · simp [hc]
          · rw [Objects.createCore_cores, Function.update_of_ne hc]
            exact hlive p c hp
      | createState q =>
          obtain rfl := Option.some.inj hnext
          exact hlive p c (Store.parent_of_clear hp)
      | destroyCore core =>
          obtain rfl := Option.some.inj hnext
          have hc : c ≠ core := by
            rintro rfl
            exact hkept.parent_ne_of_unlocked hpossible (drop_returns_iff.mp hsilent) p hp
          rw [Objects.destroyCore_cores, Function.update_of_ne hc]
          exact hlive p c hp
      | destroyState q =>
          obtain rfl := Option.some.inj hnext
          exact hlive p c (Store.parent_of_clear hp)
      | call call =>
          obtain ⟨s'', hperform, -, hcores, hparent⟩ := hkept.call hpossible.1 hpossible.2
          obtain rfl := Option.some.inj (hnext.symm.trans hperform)
          rw [hcores]
          rcases hparent p c hp with rfl | hp
          · exact hpossible.1
          · exact hlive p c hp

/-- If no destructor panics, the objects are protected. -/
theorem Objects.Run.protected_of_silent (run : Objects.Run debug (fun s a => s.Silent a) s) :
    s.Protected debug ∧ (∀ p c, s.store.parent p = some c → s.cores c ≠ none) ∧
      ∀ a, s.Possible a → s.Silent a → ∃ s', s.next debug a = some s' ∧ s'.Protected debug := by
  obtain ⟨horderly, hlive⟩ := run.orderly
  refine ⟨horderly.kept.protected, hlive, fun a hpossible hsilent => ?_⟩
  obtain ⟨s', hnext, hkept⟩ := horderly.kept.next hpossible
    (Objects.orderly_of_silent hlive hpossible hsilent)
  exact ⟨s', hnext, hkept.protected⟩

/-! ### Given steps -/

/-- The objects after some steps. -/
def Objects.steps (debug : Bool) : Objects Index Priority InProgress →
    List (Action Index Priority InProgress) → Option (Objects Index Priority InProgress)
  | s, [] => some s
  | s, a :: actions => (s.next debug a).bind fun s' => s'.steps debug actions

theorem Objects.Run.steps
    {allowed : Objects Index Priority InProgress → Action Index Priority InProgress → Prop}
    {actions : List (Action Index Priority InProgress)} (run : Objects.Run debug allowed s)
    (hallowed : ∀ a ∈ actions, ∀ s, allowed s a) (h : s.steps debug actions = some s') :
    Objects.Run debug allowed s' := by
  induction actions generalizing s with
  | nil => exact Option.some.inj h ▸ run
  | cons a actions ih =>
      obtain ⟨s'', hnext, hsteps⟩ := Option.bind_eq_some_iff.mp h
      exact ih (run.step (hallowed a List.mem_cons_self s) hnext)
        (fun b hb => hallowed b (List.mem_cons_of_mem a hb)) hsteps

/-- The objects after some steps in a row. -/
def Objects.after (debug : Bool) (s : Objects Index Priority InProgress)
    (actions : List (Action Index Priority InProgress)) : Objects Index Priority InProgress :=
  (s.steps debug actions).getD s

theorem Objects.Run.after
    {allowed : Objects Index Priority InProgress → Action Index Priority InProgress → Prop}
    {actions : List (Action Index Priority InProgress)} (run : Objects.Run debug allowed s)
    (hallowed : ∀ a ∈ actions, ∀ s, allowed s a) (h : (s.steps debug actions).isSome) :
    Objects.Run debug allowed (s.after debug actions) := by
  obtain ⟨s', hs'⟩ := Option.isSome_iff_exists.mp h
  rw [Objects.after, hs']
  exact run.steps hallowed hs'

end Steps

/-- A writer and a reader that waits for it, on a core that is destroyed. -/
def orphans (core writer reader : Addr) : List (Action ℕ ℕ ℕ) :=
  [.createState (lockPtr true writer), .createState (lockPtr false reader),
    .call (.lock true core writer ⟨0, 10⟩ 0 100), .call (.lock false core reader ⟨5, 6⟩ 0 101),
    .destroyCore core]

theorem protected_iff_orphans : ∃ s s' : Objects ℕ ℕ ℕ,
    (Objects.init.createCore (slot 0)).after true (orphans (slot 0) (slot 1) (slot 2)) = s ∧
      s.Protected true ∧ s.next true (.createCore (slot 0)) = some s' ∧
      (s'.Protected true ↔ s.Orderly (.createCore (slot 0))) := by
  have hfirst : Objects.Run true (fun s a => s.Orderly a)
      ((Objects.init : Objects ℕ ℕ ℕ).createCore (slot 0)) :=
    Objects.Run.init.step (a := .createCore (slot 0)) (fun p hp => absurd rfl hp) (if_pos rfl)
  have hrun : Objects.Run true (fun s a => s.Orderly a) _ :=
    hfirst.after (by simp [orphans, Objects.Orderly])
      (by decide +kernel : ((Objects.init.createCore (slot 0)).steps true
        (orphans (slot 0) (slot 1) (slot 2))).isSome = true)
  obtain ⟨hprotected, hnext⟩ := hrun.protected_iff
  obtain ⟨s', hs', hiff⟩ := hnext (.createCore (slot 0)) (by decide +kernel)
  exact ⟨_, s', rfl, hprotected, hs', hiff⟩

/-- A core on which a writer comes and goes. -/
def visitor (core writer : Addr) : List (Action ℕ ℕ ℕ) :=
  [.createCore core, .createState (lockPtr true writer),
    .call (.lock true core writer ⟨0, 10⟩ 0 100),
    .call (.unlock core (lockPtr true writer))]

theorem protected_of_silent_visitor : ∃ s s' : Objects ℕ ℕ ℕ,
    Objects.init.after true (visitor (slot 0) (slot 1)) = s ∧
      s.next true (.destroyCore (slot 0)) = some s' ∧ s'.Protected true := by
  have hrun : Objects.Run true (fun s a => s.Silent a)
      (Objects.init.after true (visitor (slot 0) (slot 1))) :=
    Objects.Run.init.after (by simp [visitor, Objects.Silent]) (by decide +kernel)
  obtain ⟨s', hs', hprotected⟩ := hrun.protected_of_silent.2.2 (.destroyCore (slot 0))
    (by decide +kernel) (drop_returns_iff.mpr (by decide +kernel))
  exact ⟨_, s', rfl, hs', hprotected⟩

end Interlock.Core
