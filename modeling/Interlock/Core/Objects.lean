import Interlock.Core.Unchecked

/-!
# Objects

Cores and lock states are created and destroyed, and their storage is used again.  A panic may be
caught, and an object whose destructor panics is destroyed nevertheless.

A lock state points to the core that it is locked by, and only the address is compared.  What is at
stake when an object is created or destroyed is whether this pointer, and the links in the trees of
the core, still mean what they meant.
-/

namespace Interlock.Core

open Memory RbTree

variable {Index Priority InProgress : Type}

namespace Store
variable (store : Store Index Priority InProgress)

/-- A core without locks at this place. -/
def reset (core : Addr) : Store Index Priority InProgress :=
  { store with cores := Function.update store.cores core .new }

/-- `*LockStateInner::default()` at this place. -/
def clear (p : LockPtr) : Store Index Priority InProgress where
  cores := store.cores
  parent := Function.update store.parent p none
  read := (store.read.free (p, false)).free (p, true)
  write := store.write.free p
  pending := store.pending.free p

@[simp] theorem reset_parent (core : Addr) : (store.reset core).parent = store.parent := rfl

theorem reset_reads (core : Addr) :
    (store.reset core).reads = Function.update store.reads core none := by
  funext c
  by_cases hc : c = core <;> simp [reads, reset, hc, Roots.new]

theorem reset_writes (core : Addr) :
    (store.reset core).writes = Function.update store.writes core none := by
  funext c
  by_cases hc : c = core <;> simp [writes, reset, hc, Roots.new]

theorem reset_pendings (core : Addr) :
    (store.reset core).pendings = Function.update store.pendings core none := by
  funext c
  by_cases hc : c = core <;> simp [pendings, reset, hc, Roots.new]

@[simp] theorem clear_cores (p : LockPtr) : (store.clear p).cores = store.cores := rfl

@[simp] theorem clear_parent (p : LockPtr) :
    (store.clear p).parent = Function.update store.parent p none := rfl

theorem parent_of_clear {store : Store Index Priority InProgress} {p q : LockPtr} {c : Addr}
    (h : (store.clear p).parent q = some c) : store.parent q = some c := by
  by_cases hqp : q = p
  · rw [hqp, clear_parent, Function.update_self] at h
    cases h
  · rwa [clear_parent, Function.update_of_ne hqp] at h

end Store

/-! ## Memory -/

section Memory
variable [LinearOrder Index] [LinearOrder Priority] {stray : Stray}
  {tables : Tables Index Priority InProgress} {store : Store Index Priority InProgress}

/-- What is left of it when a lock state is cleared. -/
def Stray.without (stray : Stray) (p : LockPtr) : Stray where
  parent := Function.update stray.parent p Option.none
  reads := (stray.reads.filter fun q => q ≠ (p, false)).filter fun q => q ≠ (p, true)
  writes := stray.writes.filter fun q => q ≠ p
  pendings := stray.pendings.filter fun q => q ≠ p
  reads_parent := by
    rintro ⟨q, side⟩ hq
    simp only [List.mem_filter, decide_eq_true_eq] at hq
    obtain ⟨⟨hq, hfalse⟩, htrue⟩ := hq
    have hqp : q ≠ p := by
      rintro rfl
      cases side with
      | false => exact hfalse rfl
      | true => exact htrue rfl
    rw [Function.update_of_ne hqp]
    exact stray.reads_parent _ hq
  writes_parent := by
    intro q hq
    obtain ⟨hq, hqp⟩ := List.mem_filter.mp hq
    rw [Function.update_of_ne (of_decide_eq_true hqp)]
    exact stray.writes_parent q hq
  pendings_parent := by
    intro q hq
    obtain ⟨hq, hqp⟩ := List.mem_filter.mp hq
    rw [Function.update_of_ne (of_decide_eq_true hqp)]
    exact stray.pendings_parent q hq

@[simp] theorem Stray.without_parent (stray : Stray) (p : LockPtr) :
    (stray.without p).parent = Function.update stray.parent p Option.none := rfl

/-- A lock state that no table has is cleared. -/
theorem ModelsWith.clear {p : LockPtr} (h : ModelsWith stray tables store)
    (hp : ∀ c, (tables c).locks p = none) (hqueue : ∀ c, p ∉ (tables c).queue.map Prod.fst) :
    ModelsWith (stray.without p) tables (store.clear p) := by
  have hread : ∀ side c e, ¬ (tables c).ReadEntry ((p, side), e) := by
    rintro side c e ⟨l, -, hl, -⟩
    rw [hp] at hl
    cases hl
  have hwrite : ∀ c e, ¬ (tables c).WriteEntry (p, e) := by
    rintro c e ⟨l, -, hl, -⟩
    rw [hp] at hl
    cases hl
  refine ⟨⟨fun q c hq => ?_, fun q hq => ?_⟩,
    (Indexed.discard h.reads (hread false)).discard (hread true),
    Indexed.discard h.writes hwrite, Forest.discard h.pendings hqueue⟩
  · by_cases hqp : q = p
    · subst hqp
      rw [Store.clear_parent, Function.update_self, hp]
      simp
    · rw [Stray.without_parent, Function.update_of_ne hqp] at hq
      rw [Store.clear_parent, Function.update_of_ne hqp]
      exact h.parents.tabled q c hq
  · have hqp : q ≠ p := by
      rintro rfl
      rw [Stray.without_parent, Function.update_self] at hq
      exact hq rfl
    rw [Stray.without_parent, Function.update_of_ne hqp] at hq
    rw [Stray.without_parent, Store.clear_parent, Function.update_of_ne hqp,
      Function.update_of_ne hqp]
    exact h.parents.strayed q hq

/-- A core is given up: the lock states that it has locked go astray. -/
theorem ModelsWith.abandon (h : ModelsWith stray tables store)
    (hlinked : ∀ c, (tables c).WellLinked) (core : Addr) :
    ∃ stray', ModelsWith stray' (Function.update tables core .empty) (store.reset core) ∧
      ∀ p, stray'.parent p = if store.parent p = some core then some core else stray.parent p := by
  obtain ⟨reads, hreads, hread⟩ := Indexed.abandon h.reads core
  obtain ⟨writes, hwrites, hwrite⟩ := Indexed.abandon h.writes core
  have hpendings := Forest.abandon h.pendings core
  have hstray : ∀ p, stray.parent p ≠ none →
      (if store.parent p = some core then some core else stray.parent p) ≠ none := by
    intro p hp
    split
    · simp
    · exact hp
  have hlocked : ∀ p, store.parent p = some core →
      (if store.parent p = some core then some core else stray.parent p) ≠ none := by
    intro p hp
    simp [hp]
  obtain ⟨stray', hparent, rfl, rfl, hqueue⟩ : ∃ stray' : Stray,
      (∀ p, stray'.parent p = if store.parent p = some core then some core else stray.parent p) ∧
      stray'.reads = reads ∧ stray'.writes = writes ∧
      stray'.pendings = (tables core).queue.map Prod.fst ++ stray.pendings := by
    refine ⟨⟨_, _, _, _, fun x hx => ?_, fun p hp => ?_, fun p hp => ?_⟩, fun _ => rfl,
      rfl, rfl, rfl⟩
    · rcases hread x hx with hx | ⟨e, he⟩
      · exact hstray _ (stray.reads_parent x hx)
      · obtain ⟨l, -, hl, -⟩ := he
        exact hlocked _ (h.parent_eq hl)
    · rcases hwrite p hp with hp | ⟨e, he⟩
      · exact hstray _ (stray.writes_parent p hp)
      · obtain ⟨l, -, hl, -⟩ := he
        exact hlocked _ (h.parent_eq hl)
    · rcases List.mem_append.mp hp with hp | hp
      · obtain ⟨x, hx, rfl⟩ := List.mem_map.mp hp
        obtain ⟨-, -, l, hl, -⟩ := (hlinked core).queued x hx
        exact hlocked _ (h.parent_eq hl)
      · exact hstray _ (stray.pendings_parent p hp)
  refine ⟨stray', ⟨⟨fun p c hp => ?_, fun p hp => ⟨?_, fun c => ?_⟩⟩, ?_, ?_, ?_⟩, hparent⟩
  · rw [hparent] at hp
    have hcore : store.parent p ≠ some core := fun heq => hlocked p heq hp
    rw [if_neg hcore] at hp
    rw [Store.reset_parent]
    by_cases hc : c = core
    · subst hc
      simp [hcore, Table.empty]
    · rw [Function.update_of_ne hc]
      exact h.parents.tabled p c hp
  · rw [hparent] at hp ⊢
    by_cases hcore : store.parent p = some core
    · rw [if_pos hcore]
      exact hcore
    · rw [if_neg hcore] at hp
      rw [if_neg hcore]
      exact (h.parents.strayed p hp).1
  · by_cases hc : c = core
    · subst hc
      simp [Table.empty]
    · rw [Function.update_of_ne hc]
      by_contra hlocks
      obtain ⟨l, hl⟩ := Option.ne_none_iff_exists'.mp hlocks
      rw [hparent, if_neg (by simpa [h.parent_eq hl] using hc)] at hp
      exact hp (h.parents.stray_eq_none hl)
  · rw [Store.reset_reads]
    exact ReadsModel.of_indexed hreads fun x => by simp [Table.ReadEntry, Table.empty]
  · rw [Store.reset_writes]
    exact WritesModel.of_indexed hwrites fun x => by simp [Table.WriteEntry, Table.empty]
  · rw [Store.reset_pendings]
    rw [← hqueue] at hpendings
    exact PendingsModel.of_forest hpendings rfl

end Memory

/-! ## Objects -/

/-- A call that has returned, with the numbers of its core and of its lock state. -/
structure Entry (Index Priority InProgress : Type) where
  core : ℕ
  state : ℕ
  call : Call Index Priority InProgress
  reply : Reply InProgress

/-- The core that a lock state is locked by, going by the calls that have returned. -/
def lockedBy (state : ℕ) : List (Entry Index Priority InProgress) → Option ℕ
  | [] => none
  | entry :: history =>
      if entry.state = state then
        match entry.call, entry.reply with
        | .lock .., _ => some entry.core
        | .tryLock .., .locked true => some entry.core
        | .unlock .., _ => none
        | _, _ => lockedBy state history
      else lockedBy state history

/-- The objects that exist.  Each has got a number of its own when it was created, which tells
objects apart that have been at the same place. -/
structure Objects (Index Priority InProgress : Type) where
  store : Store Index Priority InProgress
  cores : Addr → Option ℕ
  states : LockPtr → Option ℕ
  created : ℕ
  history : List (Entry Index Priority InProgress)

inductive Action (Index Priority InProgress : Type) where
  | createCore (core : Addr)
  | createState (p : LockPtr)
  | destroyCore (core : Addr)
  | destroyState (p : LockPtr)
  | call (call : Call Index Priority InProgress)

/-- The lock state that an operation is called on. -/
def Call.state : Call Index Priority InProgress → LockPtr
  | .lock isWrite _ state .. => lockPtr isWrite state
  | .tryLock isWrite _ state _ => tryLockPtr isWrite state
  | .unlock _ p => p
  | .inspect isWrite _ state _ => lockPtr isWrite state

/-- The operations on a lock state that is locked. -/
def Call.ChecksOrigin : Call Index Priority InProgress → Prop
  | .lock .. | .tryLock .. => False
  | .unlock .. | .inspect .. => True

/-- No number is used twice, and those from `created` on are not used. -/
structure Numbered {X : Type} (numbers : X → Option ℕ) (created : ℕ) : Prop where
  lt : ∀ x n, numbers x = some n → n < created
  inj : ∀ x y n, numbers x = some n → numbers y = some n → x = y

namespace Numbered
variable {X : Type} [DecidableEq X] {numbers : X → Option ℕ} {created : ℕ}

omit [DecidableEq X] in
theorem succ (h : Numbered numbers created) : Numbered numbers (created + 1) :=
  ⟨fun x n hn => (h.lt x n hn).trans (Nat.lt_succ_self _), h.inj⟩

theorem create (h : Numbered numbers created) (x : X) :
    Numbered (Function.update numbers x (some created)) (created + 1) := by
  refine ⟨fun y n hn => ?_, fun y z n hy hz => ?_⟩
  · by_cases hyx : y = x
    · rw [hyx, Function.update_self] at hn
      exact Option.some.inj hn ▸ Nat.lt_succ_self _
    · rw [Function.update_of_ne hyx] at hn
      exact h.succ.lt y n hn
  · by_cases hyx : y = x
    · by_cases hzx : z = x
      · rw [hyx, hzx]
      · rw [hyx, Function.update_self] at hy
        rw [Function.update_of_ne hzx] at hz
        exact absurd (Option.some.inj hy).symm (h.lt z n hz).ne
    · rw [Function.update_of_ne hyx] at hy
      by_cases hzx : z = x
      · rw [hzx, Function.update_self] at hz
        exact absurd (Option.some.inj hz).symm (h.lt y n hy).ne
      · rw [Function.update_of_ne hzx] at hz
        exact h.inj y z n hy hz

theorem destroy (h : Numbered numbers created) (x : X) :
    Numbered (Function.update numbers x none) created := by
  have hold : ∀ {y n}, Function.update numbers x none y = some n → numbers y = some n := by
    intro y n hn
    by_cases hyx : y = x
    · rw [hyx, Function.update_self] at hn
      cases hn
    · rwa [Function.update_of_ne hyx] at hn
  exact ⟨fun y n hn => h.lt y n (hold hn), fun y z n hy hz => h.inj y z n (hold hy) (hold hz)⟩

end Numbered

namespace Objects
variable [LinearOrder Index] [LinearOrder Priority]

/-- No objects. -/
def init : Objects Index Priority InProgress where
  store := .init
  cores _ := none
  states _ := none
  created := 0
  history := []

variable (debug : Bool) (s : Objects Index Priority InProgress)

/-- Is there free storage for what is to be created, and do the other objects exist? -/
def Possible : Action Index Priority InProgress → Prop
  | .createCore core => s.cores core = none
  | .createState p => s.states p = none
  | .destroyCore core => s.cores core ≠ none
  | .destroyState p => s.states p ≠ none
  | .call call => s.cores call.core ≠ none ∧ s.states call.state ≠ none

instance (a : Action Index Priority InProgress) : Decidable (s.Possible a) := by
  cases a <;> unfold Possible <;> infer_instance

def createCore (core : Addr) : Objects Index Priority InProgress :=
  { s with
    store := s.store.reset core
    cores := Function.update s.cores core (some s.created)
    created := s.created + 1 }

def createState (p : LockPtr) : Objects Index Priority InProgress :=
  { s with
    store := s.store.clear p
    states := Function.update s.states p (some s.created)
    created := s.created + 1 }

/-- What was in the storage is gone, also if the destructor has panicked. -/
def destroyCore (core : Addr) : Objects Index Priority InProgress :=
  { s with store := s.store.reset core, cores := Function.update s.cores core none }

def destroyState (p : LockPtr) : Objects Index Priority InProgress :=
  { s with store := s.store.clear p, states := Function.update s.states p none }

/-- A panic is caught, and the memory is as the call has left it.  If a call stops in another way,
that is the end. -/
def perform (call : Call Index Priority InProgress) : Option (Objects Index Priority InProgress) :=
  match call.perform debug ⟨s.store, []⟩ with
  | .ok reply w => some { s with
      store := w.store
      history :=
        ⟨(s.cores call.core).getD 0, (s.states call.state).getD 0, call, reply⟩ :: s.history }
  | .error (.panic _) w => some { s with store := w.store }
  | .error _ _ => none

def next (a : Action Index Priority InProgress) : Option (Objects Index Priority InProgress) :=
  if s.Possible a then
    match a with
    | .createCore core => some (s.createCore core)
    | .createState p => some (s.createState p)
    | .destroyCore core => some (s.destroyCore core)
    | .destroyState p => some (s.destroyState p)
    | .call call => s.perform debug call
  else none

/-- The objects after some steps, each of which `allowed` permits. -/
inductive Run (allowed : Objects Index Priority InProgress →
  Action Index Priority InProgress → Prop) :
    Objects Index Priority InProgress → Prop where
  | init : Run allowed .init
  | step {s s' : Objects Index Priority InProgress} {a : Action Index Priority InProgress}
      (run : Run allowed s) (hallowed : allowed s a) (hnext : s.next debug a = some s') :
      Run allowed s'

/-! ## Protection -/

/-- A call is not rejected because of the origin of the lock state. -/
def Accepts (call : Call Index Priority InProgress) : Prop :=
  ∀ w, call.perform debug ⟨s.store, []⟩ ≠ .error (.panic incorrectOrigin) w

/-- A core accepts the lock states that this very core has locked, and no others, and the links in
its trees lead to nodes in lock states that exist. -/
structure Protected : Prop where
  origin : ∀ call : Call Index Priority InProgress, call.ChecksOrigin → ∀ n m,
    s.cores call.core = some n → s.states call.state = some m →
    (s.Accepts debug call ↔ lockedBy m s.history = some n)
  reads : ∀ core q, s.cores core ≠ none → Reached (s.store.readTree core) q →
    s.states q.1 ≠ none ∧ (s.store.read.get q).isSome
  writes : ∀ core q, s.cores core ≠ none → Reached (s.store.writeTree core) q →
    s.states q ≠ none ∧ (s.store.write.get q).isSome
  pendings : ∀ core q, s.cores core ≠ none → Reached (s.store.pendingTree core) q →
    s.states q ≠ none ∧ (s.store.pending.get q).isSome

/-- No core is created where a lock state points to, and no lock state is destroyed while it is
locked by a core that exists. -/
def Orderly : Action Index Priority InProgress → Prop
  | .createCore core => ∀ p, s.states p ≠ none → s.store.parent p ≠ some core
  | .destroyState p => ∀ core, s.store.parent p = some core → s.cores core = none
  | _ => True

/-- The destructor of the object that is destroyed returns. -/
def Silent : Action Index Priority InProgress → Prop
  | .destroyCore core => ∃ w, drop core ⟨s.store, []⟩ = .ok () w
  | .destroyState p => ∃ w, earlyDrop p ⟨s.store, []⟩ = .ok () w
  | _ => True

omit [LinearOrder Index] [LinearOrder Priority] in
@[simp] theorem createCore_cores (core : Addr) :
    (s.createCore core).cores = Function.update s.cores core (some s.created) := rfl

omit [LinearOrder Index] [LinearOrder Priority] in
@[simp] theorem createState_states (p : LockPtr) :
    (s.createState p).states = Function.update s.states p (some s.created) := rfl

omit [LinearOrder Index] [LinearOrder Priority] in
@[simp] theorem destroyCore_cores (core : Addr) :
    (s.destroyCore core).cores = Function.update s.cores core none := rfl

omit [LinearOrder Index] [LinearOrder Priority] in
@[simp] theorem destroyState_states (p : LockPtr) :
    (s.destroyState p).states = Function.update s.states p none := rfl

/-! ## The invariant -/

/-- What holds between orderly steps. -/
structure Kept : Prop where
  /-- The tables of the cores that exist.  What has gone astray points to cores that do not
  exist. -/
  modelled : ∃ stray tables, ModelsWith stray tables s.store ∧ Regular debug tables ∧
    (∀ p c, stray.parent p = some c → s.cores c = none) ∧
    ∀ c p l, (tables c).locks p = some l → s.cores c ≠ none
  claimed : ∀ p, s.store.parent p ≠ none → s.states p ≠ none
  cores : Numbered s.cores s.created
  states : Numbered s.states s.created
  locked_lt : ∀ m n, lockedBy m s.history = some n → m < s.created ∧ n < s.created
  /-- The origin of a lock state is what the calls have made it. -/
  origin : ∀ p m c n, s.states p = some m → s.cores c = some n →
    (s.store.parent p = some c ↔ lockedBy m s.history = some n)

end Objects

/-! ### Calls -/

section Calls

theorem Call.claims_of_ne {parent : LockPtr → Option Addr} {reply : Reply InProgress}
    (call : Call Index Priority InProgress) {p : LockPtr} (hp : p ≠ call.state) :
    call.claims parent reply p = parent p := by
  cases call with
  | lock => exact Function.update_of_ne hp _ _
  | tryLock =>
      unfold Call.claims
      split
      · exact Function.update_of_ne hp _ _
      · rfl
  | unlock => exact Function.update_of_ne hp _ _
  | inspect => rfl

/-- A call makes its own core the parent of its lock state, and nothing else. -/
theorem Call.claims_some {parent : LockPtr → Option Addr} {reply : Reply InProgress}
    (call : Call Index Priority InProgress) {p : LockPtr} {c : Addr}
    (h : call.claims parent reply p = some c) :
    p = call.state ∧ c = call.core ∨ parent p = some c := by
  by_cases hp : p = call.state
  · subst hp
    have hclaim : ∀ parent' : LockPtr → Option Addr,
        Function.update parent' call.state (some call.core) call.state = some c →
        call.state = call.state ∧ c = call.core ∨ parent call.state = some c := by
      intro parent' hc
      rw [Function.update_self] at hc
      exact Or.inl ⟨rfl, (Option.some.inj hc).symm⟩
    cases call with
    | lock => exact hclaim parent h
    | tryLock =>
        cases reply with
        | locked complete =>
            cases complete with
            | true => exact hclaim parent h
            | false => exact Or.inr h
        | unlocked => exact Or.inr h
        | inspected => exact Or.inr h
    | unlock core p =>
        rw [Call.claims, Call.state, Function.update_self] at h
        cases h
    | inspect => exact Or.inr h
  · rw [call.claims_of_ne hp] at h
    exact Or.inr h

/-- A call does to the origin of its lock state what `lockedBy` says. -/
theorem Call.claims_iff {parent : LockPtr → Option Addr} {reply : Reply InProgress}
    {history : List (Entry Index Priority InProgress)} (call : Call Index Priority InProgress)
    {c : Addr} {core state n : ℕ} (hcore : call.core = c ↔ core = n)
    (h : parent call.state = some c ↔ lockedBy state history = some n) :
    call.claims parent reply call.state = some c ↔
      lockedBy state (⟨core, state, call, reply⟩ :: history) = some n := by
  have hclaim : some call.core = some c ↔ some core = some n := by
    rw [Option.some.injEq, Option.some.injEq, hcore]
  unfold lockedBy
  rw [if_pos rfl]
  cases call with
  | lock isWrite core' state' =>
      rw [Call.claims, Call.state, Function.update_self]
      exact hclaim
  | tryLock isWrite core' state' =>
      cases reply with
      | locked complete =>
          cases complete with
          | true =>
              rw [Call.claims, Call.state, Function.update_self]
              exact hclaim
          | false => exact h
      | unlocked => exact h
      | inspected => exact h
  | unlock core' p =>
      rw [Call.claims, Call.state, Function.update_self]
      exact iff_of_false (by simp) (by simp)
  | inspect => exact h

theorem lockedBy_cons_of_ne {entry : Entry Index Priority InProgress} {state : ℕ}
    (hstate : entry.state ≠ state) (history : List (Entry Index Priority InProgress)) :
    lockedBy state (entry :: history) = lockedBy state history := by
  rw [lockedBy, if_neg hstate]

/-- What locks, or is locked, is older than what is created next. -/
theorem lockedBy_cons_lt {entry : Entry Index Priority InProgress} {created : ℕ}
    {history : List (Entry Index Priority InProgress)} (hcore : entry.core < created)
    (hstate : entry.state < created)
    (h : ∀ m n, lockedBy m history = some n → m < created ∧ n < created) (m n : ℕ)
    (hn : lockedBy m (entry :: history) = some n) : m < created ∧ n < created := by
  unfold lockedBy at hn
  split at hn
  · rename_i heq
    rw [heq] at hstate
    split at hn
    · exact ⟨hstate, Option.some.inj hn ▸ hcore⟩
    · exact ⟨hstate, Option.some.inj hn ▸ hcore⟩
    · cases hn
    · exact h m n hn
  · exact h m n hn

end Calls

end Interlock.Core
