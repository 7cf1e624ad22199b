import Interlock.RbTree.Tree

/-!
# Trees in memory

`Represents mem c t` says that the memory holds the tree `c.fill t`, seen from the place of `t`.
Moving the focus up or down does not change what is represented (`represents_frame`).  The rules
`runs_load` and `runs_modifyNode` execute one access; the rules for the slots that the source
rewrites are stated on contexts, so that no caller has to distinguish the root from an inner node.
-/

namespace Interlock.RbTree

open Memory Node Interlock.RbTree.Tree

variable {P E S : Type} [DecidableEq P]

/-! ## Accesses -/

section Access
variable {mem : TreeMem P E S} {p : P}

@[simp] theorem runs_load {post : Node P E S → TreeMem P E S → Prop} :
    Runs (load p) mem post ↔ ∃ n, mem.heap.get p = some n ∧ post n mem := by
  cases h : mem.heap.get p <;> simp [load, h]

@[simp] theorem runs_modifyNode {f : Node P E S → Node P E S}
    {post : Unit → TreeMem P E S → Prop} :
    Runs (modifyNode p f) mem post ↔
      ∃ n, mem.heap.get p = some n ∧ post () { mem with heap := mem.heap.set p (f n) } := by
  simp [modifyNode]

omit [DecidableEq P] in
@[simp] theorem runs_fuel {post : ℕ → TreeMem P E S → Prop} :
    Runs fuel mem post ↔ post (mem.heap.size + 4) mem := by
  simp [fuel]

omit [DecidableEq P] in
@[simp] theorem setChild_eq (n : Node P E S) (side : IsRightChild) (v : Option P) :
    n.setChild side v = { n with children := Function.update n.children side v } := rfl

end Access

/-! ## Separation -/

theorem Tree.holds_cells_agree {ps : List P} {h h' : Heap P (Node P E S)}
    (hagree : Heap.AgreeOff ps h h') {t : Tree P E S} {parent : Option P}
    (hold : h.Holds (t.cells parent)) (hdisjoint : ∀ p ∈ ps, p ∉ t.ptrs) :
    h'.Holds (t.cells parent) :=
  hagree.holds hold fun p hp hps => hdisjoint p hps (mem_keys_cells.mp hp)

theorem Context.holds_cells_agree {ps : List P} {h h' : Heap P (Node P E S)}
    (hagree : Heap.AgreeOff ps h h') {c : Context P E S} {hole : Option P}
    (hold : h.Holds (c.cells hole)) (hdisjoint : ∀ p ∈ ps, p ∉ c.ptrs) :
    h'.Holds (c.cells hole) :=
  hagree.holds hold fun p hp hps => hdisjoint p hps (Context.mem_keys_cells.mp hp)

omit [DecidableEq P] in
theorem Context.ptr_subset_ptrs (c : Context P E S) : ∀ p ∈ c.ptr.toList, p ∈ c.ptrs := by
  cases c <;> simp [Context.ptr]

omit [DecidableEq P] in
theorem Tree.root_subset_ptrs (t : Tree P E S) : ∀ p ∈ t.root.toList, p ∈ t.ptrs := by
  cases t <;> simp

omit [DecidableEq P] in
theorem Tree.nodup_fork {d : IsRightChild} {item : Item P E S} {near far : Tree P E S} :
    (fork d item near far).ptrs.Nodup ↔ item.ptr ∉ near.ptrs ∧ item.ptr ∉ far.ptrs ∧
      near.ptrs.Nodup ∧ far.ptrs.Nodup ∧ near.ptrs.Disjoint far.ptrs := by
  rw [(ptrs_fork_perm d item near far).nodup_iff, List.nodup_cons, List.nodup_append',
    List.mem_append, not_or, and_assoc]

omit [DecidableEq P] in
theorem Context.nodup_frame {side : IsRightChild} {item : Item P E S} {sibling : Tree P E S}
    {up : Context P E S} :
    (frame side item sibling up).ptrs.Nodup ↔ item.ptr ∉ sibling.ptrs ∧ item.ptr ∉ up.ptrs ∧
      sibling.ptrs.Nodup ∧ up.ptrs.Nodup ∧ sibling.ptrs.Disjoint up.ptrs := by
  rw [(ptrs_frame_perm side item sibling up).nodup_iff, List.nodup_cons, List.nodup_append',
    List.mem_append, not_or, and_assoc]

omit [DecidableEq P] in
theorem Context.nodup_fill {c : Context P E S} {t : Tree P E S} :
    (c.fill t).ptrs.Nodup ↔ c.ptrs.Nodup ∧ t.ptrs.Nodup ∧ c.ptrs.Disjoint t.ptrs := by
  rw [(c.ptrs_fill_perm t).nodup_iff, List.nodup_append']

/-! ## Representation -/

/-- The memory holds `c.fill t`, linked as the pointers of the source are. -/
structure Represents (mem : TreeMem P E S) (c : Context P E S) (t : Tree P E S) : Prop where
  tree_eq : mem.tree = c.rootFor t.root
  context : mem.heap.Holds (c.cells t.root)
  focus : mem.heap.Holds (t.cells c.ptr)
  nodup : (c.fill t).ptrs.Nodup

/-- Moving the focus from a child to its parent. -/
theorem represents_frame {mem : TreeMem P E S} {side : IsRightChild} {item : Item P E S}
    {sibling t : Tree P E S} {up : Context P E S} :
    Represents mem (.frame side item sibling up) t ↔
      Represents mem up (fork side item t sibling) := by
  constructor
  · rintro ⟨htree, hcontext, hfocus, hnodup⟩
    simp only [Context.cells, Heap.holds_cons, Heap.holds_append] at hcontext
    exact ⟨by simpa [Context.rootFor] using htree, by simpa using hcontext.2.2,
      holds_cells_fork.mpr ⟨hcontext.1, hfocus, hcontext.2.1⟩, hnodup⟩
  · rintro ⟨htree, hcontext, hfocus, hnodup⟩
    obtain ⟨hitem, ht, hsibling⟩ := holds_cells_fork.mp hfocus
    refine ⟨by simpa [Context.rootFor] using htree, ?_, ht, hnodup⟩
    simp only [Context.cells, Heap.holds_cons, Heap.holds_append]
    exact ⟨hitem, hsibling, by simpa using hcontext⟩

/-- Seen from its root, a represented tree is one in the top context. -/
theorem represents_fill {mem : TreeMem P E S} {c : Context P E S} {t : Tree P E S} :
    Represents mem c t ↔ Represents mem .top (c.fill t) := by
  induction c generalizing t with
  | top => rfl
  | frame side item sibling up ih => rw [represents_frame, ih, Context.fill_frame]

namespace Represents
variable {mem : TreeMem P E S} {c : Context P E S} {d : IsRightChild} {i : Item P E S}
  {a b t : Tree P E S}

/-- The cell in focus. -/
theorem get_root (h : Represents mem c (fork d i a b)) :
    mem.heap.get i.ptr = some (i.toNode c.ptr (sides d a.root b.root)) :=
  (holds_cells_fork.mp h.focus).1

/-- The cell of the parent of the focus. -/
theorem get_parent (h : Represents mem (.frame d i b c) a) :
    mem.heap.get i.ptr = some (i.toNode c.ptr (sides d a.root b.root)) :=
  (represents_frame.mp h).get_root

/-- The focus and its context have no cell in common. -/
theorem root_not_mem (h : Represents mem c (fork d i a b)) : i.ptr ∉ c.ptrs :=
  fun hmem => (Context.nodup_fill.mp h.nodup).2.2 hmem (by simp)

theorem mono_heap {mem' : TreeMem P E S} (h : Represents mem c t) (htree : mem'.tree = mem.tree)
    {ps : List P} (hagree : Heap.AgreeOff ps mem.heap mem'.heap)
    (hdisjoint : ∀ p ∈ ps, p ∉ (c.fill t).ptrs) : Represents mem' c t := by
  simp only [(c.ptrs_fill_perm t).mem_iff, List.mem_append, not_or] at hdisjoint
  exact ⟨htree.trans h.tree_eq,
    Context.holds_cells_agree hagree h.context fun p hp => (hdisjoint p hp).1,
    holds_cells_agree hagree h.focus fun p hp => (hdisjoint p hp).2, h.nodup⟩

/-- Every node of the tree has a cell, so the heap is at least as large. -/
theorem length_le_size (h : Represents mem c t) :
    (c.fill t).ptrs.length ≤ mem.heap.size := by
  have hfocus := (represents_fill.mp h).focus
  have hlength : ∀ (t : Tree P E S) (parent : Option P),
      (t.cells parent).length = t.ptrs.length := by
    intro t
    induction t with
    | nil => intro _; rfl
    | node item left right ihl ihr => intro _; simp [cells, ihl, ihr]; omega
  have hkeys : (((c.fill t).cells none).map Prod.fst).Nodup := by
    have hnodup := h.nodup
    generalize c.fill t = t at hnodup
    suffices ∀ parent, ((t.cells parent).map Prod.fst).Perm t.ptrs from
      (this none).nodup_iff.mpr hnodup
    clear hnodup
    induction t with
    | nil => intro _; rfl
    | node item left right ihl ihr =>
        intro _
        simp only [cells, List.map_cons, List.map_append, ptrs_node]
        exact (((ihl _).append (ihr _)).cons _).trans List.perm_middle.symm
  have hle := hfocus.length_le_size hkeys
  rwa [hlength] at hle

end Represents

/-- Overwriting what the root of the focus stores, its links apart. -/
theorem modifyItem_spec {mem : TreeMem P E S} {c : Context P E S} {d : IsRightChild}
    {i : Item P E S} {a b : Tree P E S} (h : Represents mem c (fork d i a b))
    {f : Node P E S → Node P E S} (i' : Item P E S) (hptr : i'.ptr = i.ptr)
    (hf : ∀ parent children, f (i.toNode parent children) = i'.toNode parent children) :
    Runs (modifyNode i.ptr f) mem fun _ mem' => Represents mem' c (fork d i' a b) ∧
      Heap.AgreeOff [i.ptr] mem.heap mem'.heap := by
  obtain ⟨htree, hc, hfocus, hnodup⟩ := h
  obtain ⟨hi, ha, hb⟩ := holds_cells_fork.mp hfocus
  obtain ⟨-, hfn, hcf⟩ := Context.nodup_fill.mp hnodup
  obtain ⟨hia, hib, -⟩ := nodup_fork.mp hfn
  simp only [root_fork] at htree hc
  simp only [runs_modifyNode, hi, Option.some.injEq, exists_eq_left', hf]
  have hagree := Heap.AgreeOff.set mem.heap (List.mem_singleton_self i.ptr)
    (i'.toNode c.ptr (sides d a.root b.root))
  refine ⟨⟨by simpa [hptr] using htree, ?_, ?_, ?_⟩, hagree⟩
  · simp only [root_fork, hptr]
    exact Context.holds_cells_agree hagree hc (by simpa using fun hp => hcf hp (by simp))
  · refine holds_cells_fork.mpr ⟨?_, ?_, ?_⟩
    · simp [hptr]
    · rw [hptr]
      exact holds_cells_set ha _ hia
    · rw [hptr]
      exact holds_cells_set hb _ hib
  · rwa [c.ptrs_fill_congr (show (fork d i' a b).ptrs = (fork d i a b).ptrs by
      cases d <;> simp [fork, hptr])]

/-! ## Links -/

section Links
variable {mem : TreeMem P E S}

/-- Hanging a subtree below another parent. -/
theorem setParent_spec {t : Tree P E S} {parent : Option P} (parent' : Option P)
    (hold : mem.heap.Holds (t.cells parent)) (hnodup : t.ptrs.Nodup) :
    Runs (setParent t.root parent') mem fun _ mem' => mem'.tree = mem.tree ∧
      mem'.heap.Holds (t.cells parent') ∧ Heap.AgreeOff t.root.toList mem.heap mem'.heap := by
  cases t with
  | nil => simpa [setParent, cells] using Heap.AgreeOff.refl _ _
  | node item left right =>
      obtain ⟨hleft, hright, -⟩ := nodup_fork (d := false).mp hnodup
      simp only [cells, Heap.holds_cons, Heap.holds_append] at hold
      obtain ⟨hitem, hl, hr⟩ := hold
      simp only [setParent, root_node, runs_modifyNode, hitem, Option.some.injEq, exists_eq_left']
      refine ⟨trivial, ?_, Heap.AgreeOff.set _ (by simp) _⟩
      simp only [cells, Heap.holds_cons, Heap.holds_append, Heap.get_set_self]
      exact ⟨rfl, holds_cells_set hl _ hleft, holds_cells_set hr _ hright⟩

/-- Changing what hangs in the hole of a context. -/
theorem writeSlot_spec {c : Context P E S} {hole : Option P} (hole' : Option P)
    (htree : mem.tree = c.rootFor hole) (hold : mem.heap.Holds (c.cells hole))
    (hnodup : c.ptrs.Nodup) :
    Runs (writeSlot c.slot hole') mem fun _ mem' => mem'.tree = c.rootFor hole' ∧
      mem'.heap.Holds (c.cells hole') ∧ Heap.AgreeOff c.ptr.toList mem.heap mem'.heap := by
  cases c with
  | top =>
      simpa [writeSlot, Context.slot, Context.cells, Context.rootFor] using Heap.AgreeOff.refl _ _
  | frame side item sibling up =>
      obtain ⟨hsibling, hup, -⟩ := Context.nodup_frame.mp hnodup
      simp only [Context.cells, Heap.holds_cons, Heap.holds_append] at hold
      obtain ⟨hitem, hs, hu⟩ := hold
      simp only [writeSlot, Context.slot, runs_modifyNode, hitem, Option.some.injEq,
        exists_eq_left']
      refine ⟨by simpa [Context.rootFor] using htree, ?_,
        Heap.AgreeOff.set _ (by simp [Context.ptr]) _⟩
      simp only [Context.cells, Heap.holds_cons, Heap.holds_append, Heap.get_set_self]
      refine ⟨by simp [Item.toNode], holds_cells_set hs _ hsibling, hu.set _ ?_⟩
      rwa [Context.mem_keys_cells]

theorem readSlot_spec {c : Context P E S} {hole : Option P}
    (htree : mem.tree = c.rootFor hole) (hold : mem.heap.Holds (c.cells hole))
    {post : Option P → TreeMem P E S → Prop} :
    Runs (readSlot c.slot) mem post ↔ post hole mem := by
  cases c with
  | top => simp [readSlot, Context.slot, htree, Context.rootFor]
  | frame side item sibling up =>
      simp only [Context.cells, Heap.holds_cons] at hold
      simp [readSlot, Context.slot, hold.1]

/-- `sideOf` finds the side on which the hole hangs, provided that the hole is not empty. -/
theorem sideOf_spec {c : Context P E S} {p : P} {d : IsRightChild} {i : Item P E S}
    {b : Tree P E S} (hold : mem.heap.Holds ((Context.frame d i b c).cells (some p)))
    (hp : p ∉ b.ptrs) {post : IsRightChild → TreeMem P E S → Prop} :
    Runs (sideOf i.ptr p) mem post ↔ post d mem := by
  simp only [Context.cells, Heap.holds_cons] at hold
  have hroot : b.root ≠ some p := by
    intro heq
    exact hp (b.root_subset_ptrs p (by simp [heq]))
  have hbeq : (b.root == some p) = false := by simpa using hroot
  cases d <;> simp [sideOf, hold.1, sides, hbeq]

/-- `positionOf` finds the slot of the hole, provided that the hole is not empty. -/
theorem positionOf_spec {c : Context P E S} {p : P} (hold : mem.heap.Holds (c.cells (some p)))
    (hp : p ∉ c.ptrs) {post : Slot P → TreeMem P E S → Prop} :
    Runs (positionOf c.ptr p) mem post ↔ post c.slot mem := by
  cases c with
  | top => simp [positionOf, Context.ptr, Context.slot]
  | frame side item sibling up =>
      have hsibling : p ∉ sibling.ptrs := fun hmem => hp (by simp [hmem])
      simp only [positionOf, Context.ptr, runs_bind, sideOf_spec hold hsibling, runs_pure,
        Context.slot]

theorem childCell_spec {c : Context P E S} {p : P} (hold : mem.heap.Holds (c.cells (some p)))
    (hp : p ∉ c.ptrs) {post : Slot P → TreeMem P E S → Prop} :
    Runs (childCell c.ptr p) mem post ↔ post c.slot mem := by
  cases c with
  | top => simp [childCell, Context.ptr, Context.slot]
  | frame side item sibling up =>
      simp only [Context.cells, Heap.holds_cons] at hold
      have hroot : sibling.root ≠ some p := by
        intro heq
        exact hp (by simp [sibling.root_subset_ptrs p (by simp [heq])])
      cases side <;> simp [childCell, Context.ptr, Context.slot, hold.1, sides, hroot]

/-- Linking a node without children into an empty place. -/
theorem link_spec {c : Context P E S} {p : P} {n : Node P E S} (h : Represents mem c nil)
    (hn : mem.heap.get p = some n) (hchildren : n.children = fun _ => none) (hp : p ∉ c.ptrs) :
    Runs (writeSlot c.slot (some p)) mem fun _ mem₁ =>
      Runs (modifyNode p fun n => { n with parent := c.ptr }) mem₁ fun _ mem' =>
        Represents mem' c (node ⟨p, n.color, n.summary, n.element⟩ nil nil) ∧
          Heap.AgreeOff (p :: c.ptrs) mem.heap mem'.heap := by
  obtain ⟨htree, hc, -, hnodup⟩ := h
  obtain ⟨hcn, -, -⟩ := Context.nodup_fill.mp hnodup
  refine (writeSlot_spec (some p) htree hc hcn).mono ?_
  rintro _ mem₁ ⟨htree₁, hc₁, hagree₁⟩
  have hn₁ := (hagree₁ p fun hmem => hp (c.ptr_subset_ptrs p hmem)).trans hn
  simp only [runs_modifyNode, hn₁, Option.some.injEq, exists_eq_left']
  have hagree : ∀ n, Heap.AgreeOff [p] mem₁.heap (mem₁.heap.set p n) :=
    Heap.AgreeOff.set _ (List.mem_singleton_self p)
  refine ⟨⟨htree₁, ?_, ?_, ?_⟩, ?_⟩
  · exact Context.holds_cells_agree (hagree _) hc₁ (by simpa using hp)
  · have hsides : sides false (none : Option P) none = fun _ => none := by
      funext s; simp [sides]
    simp [cells, Item.toNode, hsides, hchildren]
  · exact Context.nodup_fill.mpr ⟨hcn, by simp, by simpa using hp⟩
  · exact (hagree₁.mono fun q hq => by simp [c.ptr_subset_ptrs q hq]).trans
      ((hagree _).mono (by simp))

end Links

/-! ## Linked sequences -/

/-- The memory links the nodes of `seq`, in this order, as a red-black tree.  If `sums` holds, the
summaries are right as well; without it nothing is said about them. -/
def Linked (sums : Prop) (callback : Callback E S) (mem : TreeMem P E S) (seq : List (P × E)) :
    Prop :=
  ∃ t k, Represents mem .top t ∧ t.RedBlack k ∧ (sums → t.Summed callback) ∧ t.seq = seq

end Interlock.RbTree
