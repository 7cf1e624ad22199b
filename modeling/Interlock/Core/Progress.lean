import Interlock.Core.Client
import Interlock.Core.Safety
import Interlock.Core.Unchecked

/-!
# Who waits, waits for somebody

Between two calls, a chain of waiting locks ends at a lock that is complete.  A client whose locks
all belong to one core can go along such a chain, and find somebody who has been given what he asked
for.
-/

namespace Interlock.Core

open Memory RbTree

variable {Index Priority InProgress : Type} [LinearOrder Index] [LinearOrder Priority]

section Chains
variable {store : Store Index Priority InProgress} {tables : Tables Index Priority InProgress}
  {core : Addr} {p : LockPtr} {w : Pending Index Priority InProgress}

/-- A lock that waits is blocked by another one, which has got further. -/
theorem ModelsWith.waits_for (h : Models tables store) (hgood : Good True tables)
    (hp : store.parent p = some core) (hw : store.waiter p = some w) :
    ∃ q, store.WaitsFor core p q := by
  have hx := h.mem_queue (fun c => (hgood.quiet c).toSound) hp hw
  obtain ⟨q, l, hne, hl, hconf, hholds⟩ := (hgood.quiet core).blocked trivial _ hx
  exact ⟨q, w, hp, hw, hne, hconf, h.holds_iff.mpr ⟨l, hl, hholds⟩⟩

theorem Store.WaitsFor.live {q : LockPtr} (h : Models tables store)
    (hpq : store.WaitsFor core p q) : store.parent q = some core := by
  obtain ⟨_, -, -, -, -, hholds⟩ := hpq
  obtain ⟨l, hl, -⟩ := h.holds_iff.mp hholds
  exact h.parent_eq hl

/-- Along the locks that `p` waits for, there is one that has got as far as any of them.  It does
not wait. -/
theorem ModelsWith.waits_for_complete (h : Models tables store) (hgood : Good True tables)
    (hp : store.parent p = some core) (hw : store.waiter p = some w) :
    ∃ q, Relation.TransGen (store.WaitsFor core) p q ∧ store.Complete core q := by
  classical
  have hsound := fun c => (hgood.quiet c).toSound
  obtain ⟨q₀, hq₀⟩ := h.waits_for hgood hp hw
  have hlive : ∀ q, store.parent q = some core → q ∈ (tables core).live := by
    intro q hq
    exact ((hsound core).mem_live q).mpr (h.exists_lock hq)
  set chain := (tables core).live.toFinset.filter (Relation.TransGen (store.WaitsFor core) p)
    with hchain
  have hmem : ∀ q, q ∈ chain ↔ Relation.TransGen (store.WaitsFor core) p q := by
    intro q
    rw [hchain, Finset.mem_filter, List.mem_toFinset]
    refine and_iff_right_of_imp fun hpq => hlive q ?_
    obtain ⟨r, -, hrq⟩ := Relation.TransGen.tail'_iff.mp hpq
    exact hrq.live h
  obtain ⟨q, hq, hmax⟩ := chain.exists_max_image (tables core).reach
    ⟨q₀, (hmem q₀).mpr (Relation.TransGen.single hq₀)⟩
  have hpq := (hmem q).mp hq
  obtain ⟨r, -, hrq⟩ := Relation.TransGen.tail'_iff.mp hpq
  refine ⟨q, hpq, hrq.live h, ?_⟩
  by_contra hwaits
  obtain ⟨w', hw'⟩ := Option.ne_none_iff_exists'.mp hwaits
  obtain ⟨q', hqq'⟩ := h.waits_for hgood (hrq.live h) hw'
  have hle := hmax q' ((hmem q').mpr (hpq.tail hqq'))
  exact absurd (h.reach_lt hsound hqq') (not_lt.mpr hle)

end Chains

/-! ## Clients of one core -/

/-- All locks belong to this core. -/
def Store.OnlyCore (store : Store Index Priority InProgress) (core : Addr) : Prop :=
  ∀ p c, store.parent p = some c → c = core

namespace Store.After
variable {debug : Bool} {store : Store Index Priority InProgress}
  {history : History Index Priority InProgress} {core : Addr} {p : LockPtr}

/-- A call that returns claims its lock state, or gives it back, and touches no other one. -/
theorem claims (h : store.After history) {call : Call Index Priority InProgress}
    {reply : Reply InProgress} {world : World Index Priority InProgress}
    (hrun : call.perform debug ⟨store, []⟩ = .ok reply world) :
    world.store.parent = call.claims store.parent reply := by
  obtain ⟨σ, hσ, hmodels, -⟩ := h
  have hgood := hσ.good admissible_of_nonempty
  have hsimulates : Simulates ⟨store, []⟩ ⟨σ.tables, []⟩ := ⟨hmodels, List.Forall₂.nil⟩
  rcases Call.settles hsimulates ⟨hgood.coherent, fun _ => hgood⟩ call Stray.none_parent with
    hruns | ⟨message, -, hpanics⟩
  · obtain ⟨⟨σ', -, -, hparent⟩, -⟩ := (runs_of_eq hrun).mp hruns
    exact hparent
  · obtain ⟨w', hrun', -⟩ := hpanics
    rw [hrun] at hrun'
    cases hrun'

theorem onlyCore (h : store.After history) (honly : store.OnlyCore core)
    {call : Call Index Priority InProgress} (hcore : call.core = core) {reply : Reply InProgress}
    {world : World Index Priority InProgress}
    (hrun : call.perform debug ⟨store, []⟩ = .ok reply world) : world.store.OnlyCore core := by
  have hclaim : ∀ (q p : LockPtr) c, Function.update store.parent q (some core) p = some c →
      c = core := by
    intro q p c hp
    by_cases hpq : p = q
    · rw [hpq, Function.update_self] at hp
      exact (Option.some.inj hp).symm
    · rw [Function.update_of_ne hpq] at hp
      exact honly p c hp
  intro p c hp
  rw [h.claims hrun] at hp
  subst hcore
  cases call with
  | lock isWrite core state range priority inProgress => exact hclaim _ p c hp
  | tryLock isWrite core state range =>
      cases reply with
      | locked complete =>
          cases complete with
          | true => exact hclaim _ p c hp
          | false => exact honly p c hp
      | unlocked => exact honly p c hp
      | inspected => exact honly p c hp
  | unlock core q =>
      have hp : Function.update store.parent q none p = some c := hp
      by_cases hpq : p = q
      · rw [hpq, Function.update_self] at hp
        cases hp
      · rw [Function.update_of_ne hpq] at hp
        exact honly p c hp
  | inspect isWrite core state write => exact honly p c hp

/-- Whoever waits, waits for somebody who does not, be it through others. -/
theorem waits_for_complete (h : store.After history) (honly : store.OnlyCore core)
    {w : Pending Index Priority InProgress} (hw : store.waiter p = some w) :
    ∃ q, Relation.TransGen (store.WaitsFor core) p q ∧ store.Complete core q := by
  obtain ⟨σ, hσ, hmodels, -⟩ := h
  have hgood := hσ.good admissible_of_nonempty
  obtain ⟨c, hp, -⟩ := hmodels.parent_of_waiter (fun c => (hgood.quiet c).toSound) hw
  obtain rfl := honly p c hp
  exact hmodels.waits_for_complete hgood hp hw

end Store.After

end Interlock.Core
