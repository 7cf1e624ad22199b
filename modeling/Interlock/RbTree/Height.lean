import Interlock.RbTree.Queries

/-!
# Height and termination

The tree of a run is red-black up to the colour of its root, so a path has at most twice as many
nodes as it has black ones, and one more below a red root.  With `2 ^ k ≤ n + 1` for the black
height `k` of `n` nodes this bounds the height, and the height bounds the iterations of every loop.
-/

namespace Interlock.RbTree

open Memory Node Interlock.RbTree.Tree

variable {P E S : Type}

/-! ## The height of a red-black tree -/

section Bounds
variable {t : Tree P E S} {k : ℕ}

/-- On a path at most every other node is red. -/
theorem Tree.RedBlack.height_add_weight_le (ht : t.RedBlack k) :
    t.height + t.color.weight ≤ 2 * k + 1 := by
  induction t generalizing k with
  | nil =>
      obtain rfl : k = 0 := ht
      simp [height]
  | node item left right ihl ihr =>
      obtain ⟨j, hl, hr, hcolors, rfl⟩ := ht
      have hleft := ihl hl
      have hright := ihr hr
      cases hcolor : item.color with
      | black =>
          simp only [height, color_node, hcolor, Color.weight_black]
          omega
      | red =>
          obtain ⟨hlblack, hrblack⟩ := hcolors hcolor
          rw [hlblack, Color.weight_black] at hleft
          rw [hrblack, Color.weight_black] at hright
          simp only [height, color_node, hcolor, Color.weight_red]
          omega

theorem Tree.RedBlack.pow_le (ht : t.RedBlack k) : 2 ^ k ≤ t.seq.length + 1 := by
  induction t generalizing k with
  | nil =>
      obtain rfl : k = 0 := ht
      simp
  | node item left right ihl ihr =>
      obtain ⟨j, hl, hr, -, rfl⟩ := ht
      have hleft := ihl hl
      have hright := ihr hr
      have hpow : 2 ^ (j + item.color.weight) ≤ 2 ^ j + 2 ^ j := by
        rw [← Nat.two_mul, ← Nat.pow_succ']
        apply Nat.pow_le_pow_right Nat.two_pos
        cases item.color <;> simp
      simp only [seq_node, List.length_append, List.length_cons]
      omega

theorem Tree.RedBlack.height_le (ht : t.RedBlack k) : t.height ≤ 2 * k + 1 :=
  (Nat.le_add_right _ _).trans ht.height_add_weight_le

theorem Tree.RedBlack.pow_height_le (ht : t.RedBlack k) :
    2 ^ (t.height - 1) ≤ (t.seq.length + 1) ^ 2 := by
  have hheight := ht.height_le
  calc 2 ^ (t.height - 1) ≤ 2 ^ (k * 2) := Nat.pow_le_pow_right Nat.two_pos (by omega)
    _ = (2 ^ k) ^ 2 := Nat.pow_mul 2 k 2
    _ ≤ (t.seq.length + 1) ^ 2 := Nat.pow_le_pow_left ht.pow_le 2

theorem Tree.RedBlack.height_le_log (ht : t.RedBlack k) :
    t.height ≤ 2 * Nat.log 2 (t.seq.length + 1) + 1 := by
  have hlog := Nat.le_log_of_pow_le Nat.one_lt_two ht.pow_le
  have hheight := ht.height_le
  omega

end Bounds

variable [DecidableEq P]

/-- The longest path from `link` down to nil passes that many nodes. -/
inductive HasHeight (heap : Heap P (Node P E S)) : Option P → ℕ → Prop where
  | nil : HasHeight heap none 0
  | node {p : P} {n : Node P E S} {left right : ℕ} (hget : heap.get p = some n)
      (hleft : HasHeight heap (n.children false) left)
      (hright : HasHeight heap (n.children true) right) :
      HasHeight heap (some p) (Nat.max left right + 1)

theorem hasHeight_of_cells {heap : Heap P (Node P E S)} {t : Tree P E S} {parent : Option P}
    (hold : heap.Holds (t.cells parent)) : HasHeight heap t.root t.height := by
  induction t generalizing parent with
  | nil => exact .nil
  | node item left right ihl ihr =>
      obtain ⟨hitem, hleft, hright⟩ := (holds_cells_fork (d := false)).mp hold
      exact .node hitem (ihl hleft) (ihr hright)

variable {debug : Bool} {callback : Callback E S} {mem : TreeMem P E S} {seq : List (P × E)}

/-! ## Steps along a path -/

/-- No loop of an operation on the tree that links `live` needs more than `bound` iterations: cut
off there, the operation returns what it returns anyway. -/
structure Within (bound : ℕ) (debug : Bool) (callback : Callback E S) (mem : TreeMem P E S)
    (live : List P) : Prop where
  insert : ∀ p, p ∉ live → (mem.heap.get p).isSome → ∃ mem',
    insertWith (pure bound) debug callback p mem = .ok () mem' ∧
      Node.insert debug callback p mem = .ok () mem'
  remove : ∀ p ∈ live, ∃ mem',
    removeWith (pure bound) debug callback p mem = .ok () mem' ∧
      Node.remove debug callback p mem = .ok () mem'
  successor : ∀ p ∈ live, ∃ r,
    neighborWith (pure bound) false p mem = .ok r mem ∧ Node.successor p mem = .ok r mem
  predecessor : ∀ p ∈ live, ∃ r,
    neighborWith (pure bound) true p mem = .ok r mem ∧ Node.predecessor p mem = .ok r mem
  lowerBound : ∀ cmp : E → Ordering, ∃ r,
    lowerBoundWith (pure bound) cmp mem = .ok r mem ∧ Node.lowerBound cmp mem = .ok r mem
  prefixSum : ∀ p ∈ live, ∃ sum,
    prefixSumWith (pure bound) callback (some p) mem = .ok sum mem ∧
      Node.prefixSum callback (some p) mem = .ok sum mem

theorem Represents.exists_node {t : Tree P E S} (hrep : Represents mem .top t) {p : P}
    (hp : p ∈ t.ptrs) : ∃ c i a b, i.ptr = p ∧ c.fill (node i a b) = t ∧
      Represents mem c (node i a b) := by
  obtain ⟨pre, e, post, hseq⟩ := exists_split hp
  obtain ⟨c, i, a, b, hfill, hi, -, -⟩ := Context.exists_focus .top hseq
  rw [Context.fill_top] at hfill
  subst hfill
  exact ⟨c, i, a, b, congrArg Prod.fst hi, rfl, represents_fill.mpr hrep⟩

/-- On a red-black tree `insert` returns, after at most as many iterations as the tree is high, and
the same with and without debug assertions. -/
theorem Represents.insert_settled {t : Tree P E S} {k : ℕ} (hrep : Represents mem .top t)
    (hrb : t.RedBlack k) {p : P} (hp : p ∉ t.ptrs) (hlive : (mem.heap.get p).isSome) :
    ∃ mem', ∀ debug, insertWith (pure t.height) debug callback p mem = .ok () mem' ∧
      Node.insert debug callback p mem = .ok () mem' := by
  obtain ⟨n, hn⟩ := Option.isSome_iff_exists.mp hlive
  obtain ⟨_, mem', hsame⟩ := settled (fun limit debug => insertWith limit debug callback p)
    (fun _ _ debug hle => insertWith_below debug callback hle p)
    (insertWith_spec False.elim hrep hrb False.elim (allows_pure le_rfl _) hn hp False.elim)
    (insertWith_spec False.elim hrep hrb False.elim hrep.allows_fuel hn hp False.elim)
  exact ⟨mem', hsame⟩

theorem Represents.remove_settled {t : Tree P E S} {k : ℕ} (hrep : Represents mem .top t)
    (hrb : t.RedBlack k) {p : P} (hp : p ∈ t.ptrs) :
    ∃ mem', ∀ debug, removeWith (pure t.height) debug callback p mem = .ok () mem' ∧
      Node.remove debug callback p mem = .ok () mem' := by
  obtain ⟨pre, e, post, hseq⟩ := exists_split hp
  obtain ⟨_, mem', hsame⟩ := settled (fun limit debug => removeWith limit debug callback p)
    (fun _ _ debug hle => removeWith_below debug callback hle p)
    (removeWith_spec False.elim hrep hrb False.elim hseq (allows_pure le_rfl _))
    (removeWith_spec False.elim hrep hrb False.elim hseq hrep.allows_fuel)
  exact ⟨mem', hsame⟩

/-- A red-black tree is searched and edited within its height. -/
theorem Represents.within {t : Tree P E S} {k : ℕ} (hrep : Represents mem .top t)
    (hrb : t.RedBlack k) : Within t.height debug callback mem t.ptrs where
  insert p hp hlive := by
    obtain ⟨mem', hsame⟩ := hrep.insert_settled hrb hp hlive
    exact ⟨mem', hsame debug⟩
  remove p hp := by
    obtain ⟨mem', hsame⟩ := hrep.remove_settled hrb hp
    exact ⟨mem', hsame debug⟩
  successor p hp := by
    obtain ⟨c, i, a, b, rfl, rfl, hfocus⟩ := hrep.exists_node hp
    unfold Node.successor
    exact ⟨_, eq_ok (neighborWith_spec (a := b) (b := a) hfocus (allows_pure le_rfl _)),
      eq_ok (neighborWith_spec (a := b) (b := a) hfocus hfocus.allows_fuel)⟩
  predecessor p hp := by
    obtain ⟨c, i, a, b, rfl, rfl, hfocus⟩ := hrep.exists_node hp
    unfold Node.predecessor
    exact ⟨_, eq_ok (neighborWith_spec (a := a) (b := b) hfocus (allows_pure le_rfl _)),
      eq_ok (neighborWith_spec (a := a) (b := b) hfocus hfocus.allows_fuel)⟩
  lowerBound cmp := by
    unfold Node.lowerBound
    exact ⟨_, eq_ok (lowerBoundWith_spec hrep (allows_pure le_rfl _)),
      eq_ok (lowerBoundWith_spec hrep hrep.allows_fuel)⟩
  prefixSum p hp := by
    obtain ⟨c, i, a, b, rfl, rfl, hfocus⟩ := hrep.exists_node hp
    unfold Node.prefixSum
    exact ⟨_, eq_ok (prefixSumWith_spec hfocus (allows_pure le_rfl _)),
      eq_ok (prefixSumWith_spec hfocus hfocus.allows_fuel)⟩

/-- The height of the tree of any run is logarithmic in the number of its nodes, and no loop of an
operation makes more iterations than that. -/
theorem Run.logarithmic (run : Run False debug callback mem seq) :
    ∃ height, HasHeight mem.heap mem.tree height ∧
      2 ^ (height - 1) ≤ (seq.length + 1) ^ 2 ∧
      height ≤ 2 * Nat.log 2 (seq.length + 1) + 1 ∧
      Within height debug callback mem (seq.map Prod.fst) := by
  obtain ⟨_, ⟨t, k, hrep, hrb, -, rfl⟩, hperm⟩ := run.linked False.elim
  have hptrs : ∀ p, p ∈ seq.map Prod.fst ↔ p ∈ t.ptrs := fun p =>
    (hperm.map Prod.fst).mem_iff.symm
  have hwithin : Within t.height debug callback mem t.ptrs := hrep.within hrb
  refine ⟨t.height, ?_, ?_, ?_, ?_⟩
  · rw [show mem.tree = t.root from hrep.tree_eq]
    exact hasHeight_of_cells hrep.focus
  · rw [← hperm.length_eq]
    exact hrb.pow_height_le
  · rw [← hperm.length_eq]
    exact hrb.height_le_log
  · exact ⟨fun p hp => hwithin.insert p ((hptrs p).not.mp hp),
      fun p hp => hwithin.remove p ((hptrs p).mp hp),
      fun p hp => hwithin.successor p ((hptrs p).mp hp),
      fun p hp => hwithin.predecessor p ((hptrs p).mp hp), hwithin.lowerBound,
      fun p hp => hwithin.prefixSum p ((hptrs p).mp hp)⟩

theorem logarithmic_ties : ∃ (mem : TreeMem ℕ ℕ Unit) (height : ℕ), mem.tree = some 0 ∧
    HasHeight mem.heap mem.tree height ∧ height ≤ 2 * Nat.log 2 4 + 1 := by
  obtain ⟨mem, htree, run⟩ := run_ties
  obtain ⟨height, hheight, -, hle, -⟩ := run.logarithmic
  exact ⟨mem, height, htree, hheight, hle⟩

/-! ## Termination -/

/-- Below a nil child there is little room: a red node has no child on the other side either, and a
black one at most a red child. -/
theorem Represents.lone_child {c : Context P E S} {d : IsRightChild} {i : Item P E S}
    {a : Tree P E S} (hrep : Represents mem c (fork d i nil a)) {h : ℕ}
    (ht : (fork d i nil a).RedBlack h) :
    (i.color = .red → a.root = none) ∧
      (i.color = .black → ∀ child m, a.root = some child → mem.heap.get child = some m →
        m.color = .red) := by
  obtain ⟨k, hnil, ha, hcolors, -⟩ := redBlack_fork.mp ht
  obtain rfl : k = 0 := hnil
  constructor
  · intro hred
    rw [ha.eq_nil (hcolors hred).2]
    rfl
  · intro _ child m hroot hm
    obtain ⟨j, x, y, rfl, rfl⟩ := exists_fork_of_root (fun _ => false) hroot
    have hj := (holds_cells_fork.mp (holds_cells_fork.mp hrep.focus).2.2).1
    obtain rfl := Option.some.inj (hm.symm.trans hj)
    by_contra hne
    have hblack : j.color = .black := by
      cases hj : j.color with
      | black => rfl
      | red => exact absurd hj hne
    have hempty := ha.eq_nil (by rw [color_fork]; exact hblack)
    rw [hempty] at hroot
    exact absurd hroot (by simp)

/-- On the tree of any run `remove` and `insert` return.  So their loops end, and nothing faults on
the way: `unwrap` finds the sibling, `expect` the post-rotation root, no arm of
`unreachable_unchecked` is taken, and with debug assertions the node that `unlinkWith` takes out has
no child if it is red and a red one if it is black, and the grandparent of two red nodes is black.
Debug assertions make no difference to the result. -/
theorem Run.rebalancing_total (run : Run False debug callback mem seq) :
    (∀ p ∈ seq.map Prod.fst, ∃ mem', ∀ debug, Node.remove debug callback p mem = .ok () mem') ∧
    (∀ p, p ∉ seq.map Prod.fst → (mem.heap.get p).isSome →
      ∃ mem', ∀ debug, Node.insert debug callback p mem = .ok () mem') ∧
    ∀ p ∈ seq.map Prod.fst, ∀ n side, mem.heap.get p = some n → n.children side = none →
      (n.color = .red → n.children (!side) = none) ∧
      (n.color = .black → ∀ child m, n.children (!side) = some child →
        mem.heap.get child = some m → m.color = .red) := by
  obtain ⟨_, ⟨t, k, hrep, hrb, -, rfl⟩, hperm⟩ := run.linked False.elim
  have hptrs : ∀ p, p ∈ seq.map Prod.fst ↔ p ∈ t.ptrs := fun p =>
    (hperm.map Prod.fst).mem_iff.symm
  refine ⟨?_, ?_, ?_⟩
  · intro p hp
    obtain ⟨mem', hsame⟩ := hrep.remove_settled hrb ((hptrs p).mp hp)
    exact ⟨mem', fun debug => (hsame debug).2⟩
  · intro p hp hlive
    obtain ⟨mem', hsame⟩ := hrep.insert_settled hrb ((hptrs p).not.mp hp) hlive
    exact ⟨mem', fun debug => (hsame debug).2⟩
  · intro p hp n side hn hnone
    obtain ⟨c, i, a, b, rfl, rfl, hfocus⟩ := hrep.exists_node ((hptrs p).mp hp)
    obtain ⟨h, -, ht, -⟩ := Context.redBlack_of_fill hrb
    obtain ⟨x, y, hfork⟩ : ∃ x y, node i a b = fork side i x y := by
      cases side
      · exact ⟨a, b, rfl⟩
      · exact ⟨b, a, rfl⟩
    rw [hfork] at hfocus ht
    obtain rfl := Option.some.inj (hn.symm.trans hfocus.get_root)
    simp only [Item.toNode_children, sides_self, sides_not, Item.toNode_color] at hnone ⊢
    obtain rfl := root_eq_none.mp hnone
    exact hfocus.lone_child ht

theorem rebalancing_total_ties : ∃ mem mem' : TreeMem ℕ ℕ Unit, mem.tree = some 0 ∧
    ∀ debug, Node.remove debug newestFirst 0 mem = .ok () mem' := by
  obtain ⟨mem, htree, run⟩ := run_ties
  obtain ⟨mem', hremove⟩ := run.rebalancing_total.1 0 (by simp)
  exact ⟨mem, mem', htree, hremove⟩

end Interlock.RbTree
