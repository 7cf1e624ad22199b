import Interlock.RbTree.Layout

/-!
# Limits on the loops

`fuel` lets every loop make more iterations than there are cells.  With some other `limit` in its
place, an operation faults where a loop needs more iterations than `limit` says.  So an operation
that returns under a limit has loops which make at most that many iterations.

`Allows limit n ps`: as long as the nodes `ps` are live, `limit` lets a loop make `n` iterations.
-/

namespace Interlock.RbTree

open Memory

variable {P E S : Type} [DecidableEq P]

namespace Node

/-! ## What a limit allows -/

/-- As long as the nodes `ps` are live, `limit` lets a loop make `n` iterations. -/
def Allows (limit : TreeM P E S ℕ) (n : ℕ) (ps : List P) : Prop :=
  ∀ mem : TreeMem P E S, (∀ p ∈ ps, (mem.heap.get p).isSome) →
    Runs limit mem fun k mem' => n ≤ k ∧ mem' = mem

variable {limit : TreeM P E S ℕ} {m n : ℕ} {ps qs : List P}

theorem allows_pure (hle : n ≤ m) (ps : List P) : Allows (pure m : TreeM P E S ℕ) n ps :=
  fun _ _ => runs_pure.mpr ⟨hle, rfl⟩

theorem allows_fuel (hnodup : ps.Nodup) (hle : n ≤ ps.length) :
    Allows (fuel : TreeM P E S ℕ) n ps := by
  intro mem hlive
  refine runs_fuel.mpr ⟨?_, rfl⟩
  have hsub : ps ⊆ mem.heap.cells.map Prod.fst := by
    intro p hp
    obtain ⟨node, hnode⟩ := Option.isSome_iff_exists.mp (hlive p hp)
    exact Heap.mem_keys_of_get hnode
  have hlength := (List.subperm_of_subset hnodup hsub).length_le
  rw [List.length_map] at hlength
  exact (hle.trans hlength).trans (Nat.le_add_right _ _)

theorem Allows.mono (h : Allows limit n ps) (hle : m ≤ n) (hsub : ∀ p ∈ ps, p ∈ qs) :
    Allows limit m qs := by
  intro mem hlive
  refine (h mem fun p hp => hlive p (hsub p hp)).mono ?_
  rintro k mem' ⟨hk, rfl⟩
  exact ⟨hle.trans hk, rfl⟩

/-! ## Raising a limit

Where an operation returns under some limit, with debug assertions, it returns the same under every
higher limit and without debug assertions. -/

/-- `limit'` lets loops make at least as many iterations. -/
def LimitLe (limit limit' : TreeM P E S ℕ) : Prop :=
  ∀ mem, ∃ n n', limit mem = .ok n mem ∧ limit' mem = .ok n' mem ∧ n ≤ n'

omit [DecidableEq P] in
theorem LimitLe.bind {α : Type} {limit limit' : TreeM P E S ℕ} (h : LimitLe limit limit')
    {loop loop' : ℕ → TreeM P E S α} (hloop : ∀ n n', n ≤ n' → Below (loop n) (loop' n')) :
    Below (limit >>= loop) (limit' >>= loop') := by
  intro mem a mem' hrun
  obtain ⟨n, n', hn, hn', hle⟩ := h mem
  simp only [Bind.bind, EStateM.bind, hn] at hrun
  simp only [Bind.bind, EStateM.bind, hn']
  exact hloop n n' hle mem a mem' hrun

section Below
variable (debug : Bool) (callback : Callback E S)

theorem rotate_below (node : P) (dir : IsRightChild) :
    Below (rotate true callback node dir) (rotate debug callback node dir) := by
  unfold rotate
  repeat' first
    | with_reducible exact Below.refl _
    | exact below_debugAssert debug _ _
    | refine Below.bind ?_ fun _ => ?_

theorem descend_below (newNode : P) (n n' : ℕ) (hle : n ≤ n') (parent : P) (slot : Slot P) :
    Below (descend true callback newNode n parent slot)
      (descend debug callback newNode n' parent slot) := by
  induction n generalizing n' parent slot with
  | zero => exact below_throw _ _
  | succ n ih =>
      obtain ⟨m, rfl⟩ : ∃ m, n' = m + 1 := ⟨n' - 1, by omega⟩
      unfold descend
      repeat' first
        | with_reducible exact Below.refl _
        | exact below_debugAssert debug _ _
        | exact ih m (by omega) _ _
        | refine Below.bind ?_ fun _ => ?_
        | split

theorem insertFixup_below (n n' : ℕ) (hle : n ≤ n') (node parent : P) (side : IsRightChild)
    (slot : Slot P) : Below (insertFixup true callback n node parent side slot)
      (insertFixup debug callback n' node parent side slot) := by
  induction n generalizing n' node parent side slot with
  | zero => exact below_throw _ _
  | succ n ih =>
      obtain ⟨m, rfl⟩ : ∃ m, n' = m + 1 := ⟨n' - 1, by omega⟩
      unfold insertFixup
      repeat' first
        | with_reducible exact Below.refl _
        | exact below_debugAssert debug _ _
        | exact rotate_below debug callback _ _
        | exact ih m (by omega) _ _ _ _
        | refine Below.bind ?_ fun _ => ?_
        | split

theorem excludeSummary_below (sum : S) (n n' : ℕ) (hle : n ≤ n') (link : Option P) :
    Below (excludeSummary callback sum n link) (excludeSummary callback sum n' link) := by
  induction n generalizing n' link with
  | zero =>
      cases link with
      | none => cases n' <;> exact Below.refl _
      | some p => exact below_throw _ _
  | succ n ih =>
      obtain ⟨m, rfl⟩ : ∃ m, n' = m + 1 := ⟨n' - 1, by omega⟩
      cases link with
      | none => exact Below.refl _
      | some p => exact Below.bind_right fun _ => Below.bind_right fun _ => ih m (by omega) _

theorem findPred_below (n n' : ℕ) (hle : n ≤ n') (pred parent : P) (side : IsRightChild) :
    Below (findPred n pred parent side : TreeM P E S _) (findPred n' pred parent side) := by
  induction n generalizing n' pred parent side with
  | zero => exact below_throw _ _
  | succ n ih =>
      obtain ⟨m, rfl⟩ : ∃ m, n' = m + 1 := ⟨n' - 1, by omega⟩
      unfold findPred
      repeat' first
        | with_reducible exact Below.refl _
        | exact ih m (by omega) _ _ _
        | refine Below.bind ?_ fun _ => ?_
        | split

theorem deductBetween_below (sum : S) (node : P) (n n' : ℕ) (hle : n ≤ n') (mid : P) :
    Below (deductBetween callback sum node n mid) (deductBetween callback sum node n' mid) := by
  induction n generalizing n' mid with
  | zero => exact below_throw _ _
  | succ n ih =>
      obtain ⟨m, rfl⟩ : ∃ m, n' = m + 1 := ⟨n' - 1, by omega⟩
      unfold deductBetween
      repeat' first
        | with_reducible exact Below.refl _
        | exact ih m (by omega) _
        | refine Below.bind ?_ fun _ => ?_
        | split

theorem exchangeLinks_below (node pred child predParent : P) (predSide : IsRightChild) :
    Below (exchangeLinks true node pred child predParent predSide : TreeM P E S Unit)
      (exchangeLinks debug node pred child predParent predSide) := by
  unfold exchangeLinks
  repeat' first
    | with_reducible exact Below.refl _
    | exact below_debugAssert debug _ _
    | refine Below.bind ?_ fun _ => ?_
    | split

theorem rebalance_below (n n' : ℕ) (hle : n ≤ n') (parent : P) (side : IsRightChild) :
    Below (rebalance true callback n parent side) (rebalance debug callback n' parent side) := by
  induction n generalizing n' parent side with
  | zero => exact below_throw _ _
  | succ n ih =>
      obtain ⟨m, rfl⟩ : ∃ m, n' = m + 1 := ⟨n' - 1, by omega⟩
      unfold rebalance
      repeat' first
        | with_reducible exact Below.refl _
        | exact below_debugAssert debug _ _
        | exact below_throw _ _
        | exact rotate_below debug callback _ _
        | exact ih m (by omega) _ _
        | refine Below.bind ?_ fun _ => ?_
        | split

variable {limit limit' : TreeM P E S ℕ} (hle : LimitLe limit limit')

include hle

theorem insertWith_below (newNode : P) : Below (insertWith limit true callback newNode)
    (insertWith limit' debug callback newNode) := by
  unfold insertWith
  refine Below.bind_right fun _ => Below.bind_right fun mem => ?_
  split
  · refine hle.bind fun n n' hn =>
      (descend_below debug callback newNode n n' hn _ _).bind fun r => ?_
    exact hle.bind fun n n' hn => insertFixup_below debug callback n n' hn _ _ _ _
  · exact Below.refl _

theorem exchangeWith_below (node child : P) (parent : Option P) :
    Below (exchangeWith limit true callback node child parent)
      (exchangeWith limit' debug callback node child parent) := by
  unfold exchangeWith
  refine hle.bind fun n n' hn => (findPred_below n n' hn _ _ _).bind fun r => ?_
  refine Below.bind_right fun pred => ?_
  refine hle.bind fun n n' hn => (deductBetween_below callback _ _ n n' hn _).bind fun _ => ?_
  repeat' first
    | with_reducible exact Below.refl _
    | exact below_debugAssert debug _ _
    | exact exchangeLinks_below debug _ _ _ _ _
    | refine Below.bind ?_ fun _ => ?_

theorem unlinkWith_below (node : P) : Below (unlinkWith limit true callback node)
    (unlinkWith limit' debug callback node) := by
  unfold unlinkWith
  repeat' first
    | with_reducible exact Below.refl _
    | exact below_debugAssert debug _ _
    | exact hle.bind fun n n' hn => rebalance_below debug callback n n' hn _ _
    | refine Below.bind ?_ fun _ => ?_
    | split

theorem removeWith_below (node : P) : Below (removeWith limit true callback node)
    (removeWith limit' debug callback node) := by
  unfold removeWith
  refine Below.bind_right fun n => ?_
  refine hle.bind fun n n' hn => (excludeSummary_below callback _ n n' hn _).bind fun _ => ?_
  repeat' first
    | with_reducible exact Below.refl _
    | exact below_debugAssert debug _ _
    | exact exchangeWith_below debug callback hle _ _ _
    | exact unlinkWith_below debug callback hle _
    | refine Below.bind ?_ fun _ => ?_
    | split

end Below

omit [DecidableEq P] in
/-- An operation that returns with debug assertions, both under `fuel` and under the limit `bound`,
returns the same under both and without debug assertions. -/
theorem settled {α : Type} (op : TreeM P E S ℕ → Bool → TreeM P E S α)
    (hop : ∀ limit limit' debug, LimitLe limit limit' → Below (op limit true) (op limit' debug))
    {bound : ℕ} {mem : TreeMem P E S} {post post' : α → TreeMem P E S → Prop}
    (hbound : Runs (op (pure bound) true) mem post) (hfuel : Runs (op fuel true) mem post') :
    ∃ a mem', ∀ debug, op (pure bound) debug mem = .ok a mem' ∧ op fuel debug mem = .ok a mem' := by
  -- A limit above both
  let higher : TreeM P E S ℕ := fun mem => .ok (Nat.max bound (mem.heap.size + 4)) mem
  have hle₁ : LimitLe (pure bound) higher := fun mem => ⟨_, _, rfl, rfl, Nat.le_max_left _ _⟩
  have hle₂ : LimitLe fuel higher := fun mem => ⟨_, _, rfl, rfl, Nat.le_max_right _ _⟩
  have heq : op (pure bound) true mem = op fuel true mem :=
    (hop _ _ true hle₁).eq (hop _ _ true hle₂) hbound hfuel
  obtain ⟨a, mem', hrun, -⟩ := hbound
  have hrun' : op fuel true mem = .ok a mem' := heq.symm.trans hrun
  refine ⟨a, mem', fun debug => ⟨?_, ?_⟩⟩
  · exact hop _ _ debug (fun mem => ⟨bound, bound, rfl, rfl, le_rfl⟩) mem a mem' hrun
  · exact hop _ _ debug (fun mem => ⟨_, _, rfl, rfl, le_rfl⟩) mem a mem' hrun'

end Node

/-- Every node of the tree has a cell. -/
theorem Represents.live {mem : TreeMem P E S} {c : Context P E S} {t : Tree P E S}
    (h : Represents mem c t) : ∀ p ∈ (c.fill t).ptrs, (mem.heap.get p).isSome := by
  intro p hp
  rw [← Tree.mem_keys_cells] at hp
  obtain ⟨cell, hcell, rfl⟩ := List.mem_map.mp hp
  rw [(represents_fill.mp h).focus cell hcell]
  rfl

/-- On a represented tree `fuel` is enough for any loop along its paths. -/
theorem Represents.allows_fuel {mem : TreeMem P E S} {c : Context P E S} {t : Tree P E S}
    (h : Represents mem c t) :
    Node.Allows (Node.fuel : TreeM P E S ℕ) (c.fill t).height (c.fill t).ptrs :=
  Node.allows_fuel h.nodup (Tree.height_le _)

end Interlock.RbTree
