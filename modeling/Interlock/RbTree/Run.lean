import Interlock.RbTree.Remove
import Interlock.RbTree.Search

/-!
# Runs of insertions and removals

A run starts with an empty tree.  Its steps are calls of `insert` and `remove`, and between them
anything that the owner of the nodes does to nodes that are not linked.  Next to the memory a run
carries the list that the tree stands for: `insertSeq` and `removeSeq` say what the two operations
do to it.

`ValidNode` is `tests::validate_node` as a relation, with the nodes it visits.
-/

namespace Interlock.RbTree

open Memory Node Interlock.RbTree.Tree

variable {P E S : Type} [DecidableEq P]

/-! ## The list that the tree stands for -/

/-- The new entry goes after the longest prefix whose elements do not answer `Less`. -/
def insertSeq (callback : Callback E S) (x : P × E) (seq : List (P × E)) : List (P × E) :=
  seq.takeWhile (fun y => goesRight callback x.2 y.2) ++
    x :: seq.dropWhile fun y => goesRight callback x.2 y.2

def removeSeq (p : P) (seq : List (P × E)) : List (P × E) := seq.filter fun y => y.1 ≠ p

/-- The memories that a run can reach, each with the list that the operations should have made.
With `sums` the owner gives every node that it inserts the right summary. -/
inductive Run (sums : Prop) (debug : Bool) (callback : Callback E S) :
    TreeMem P E S → List (P × E) → Prop where
  | start (heap : Heap P (Node P E S)) : Run sums debug callback ⟨none, heap⟩ []
  /-- The owner creates or overwrites a node that is not linked. -/
  | write {mem seq} (run : Run sums debug callback mem seq) {p : P} (hp : p ∉ seq.map Prod.fst)
      (n : Node P E S) : Run sums debug callback { mem with heap := mem.heap.set p n } seq
  /-- The owner drops a node that is not linked. -/
  | drop {mem seq} (run : Run sums debug callback mem seq) {p : P} (hp : p ∉ seq.map Prod.fst) :
      Run sums debug callback { mem with heap := mem.heap.free p } seq
  | insert {mem seq mem'} (run : Run sums debug callback mem seq) {p : P} {n : Node P E S}
      (hp : p ∉ seq.map Prod.fst) (hn : mem.heap.get p = some n)
      (hsummary : sums → n.summary = callback.elementToSummary n.element)
      (hinsert : Node.insert debug callback p mem = .ok () mem') :
      Run sums debug callback mem' (insertSeq callback (p, n.element) seq)
  | remove {mem seq mem'} (run : Run sums debug callback mem seq) {p : P}
      (hp : p ∈ seq.map Prod.fst)
      (hremove : Node.remove debug callback p mem = .ok () mem') :
      Run sums debug callback mem' (removeSeq p seq)

/-! ## What the memory looks like -/

/-- The subtree behind `link`, hanging below `parent`, is well formed: its paths have `height`
black nodes, it links `nodes` in this order, and its summaries add up to `sum`. -/
inductive ValidNode (callback : Callback E S) (heap : Heap P (Node P E S)) :
    Option P → Option P → ℕ → List P → S → Prop where
  | nil (parent : Option P) : ValidNode callback heap parent none 0 [] callback.zeroSummary
  | node {parent : Option P} {p : P} {n : Node P E S} {height : ℕ} {left right : List P}
      {leftSum rightSum : S} (hget : heap.get p = some n) (hparent : n.parent = parent)
      (hleft : ValidNode callback heap (some p) (n.children false) height left leftSum)
      (hright : ValidNode callback heap (some p) (n.children true) height right rightSum)
      (hcolor : n.color = .red → ∀ side child m, n.children side = some child →
        heap.get child = some m → m.color = .black)
      (hsummary : n.summary = callback.addAssignSummary
        (callback.addAssignSummary leftSum (callback.elementToSummary n.element)) rightSum) :
      ValidNode callback heap parent (some p) (height + n.color.weight) (left ++ p :: right)
        n.summary

/-- `tests::validate`: the whole tree is well formed, and links exactly `live`, each node once. -/
def Valid (callback : Callback E S) (mem : TreeMem P E S) (live : List P) : Prop :=
  ∃ height nodes sum, ValidNode callback mem.heap none mem.tree height nodes sum ∧ nodes.Nodup ∧
    ∀ p, p ∈ nodes ↔ p ∈ live

/-- The nodes behind `link` with their elements, as an in-order traversal lists them. -/
inductive InOrder (heap : Heap P (Node P E S)) : Option P → List (P × E) → Prop where
  | nil : InOrder heap none []
  | node {p : P} {n : Node P E S} {left right : List (P × E)} (hget : heap.get p = some n)
      (hleft : InOrder heap (n.children false) left)
      (hright : InOrder heap (n.children true) right) :
      InOrder heap (some p) (left ++ (p, n.element) :: right)

/-- The addresses that the links lead to from the root, whether there are nodes or not. -/
inductive Reached (mem : TreeMem P E S) : P → Prop where
  | root {p : P} (hroot : mem.tree = some p) : Reached mem p
  | child {p q : P} {n : Node P E S} {side : IsRightChild} (hp : Reached mem p)
      (hn : mem.heap.get p = some n) (hq : n.children side = some q) : Reached mem q

variable {debug : Bool} {callback : Callback E S}

/-- A traversal has one result. -/
theorem InOrder.unique {heap : Heap P (Node P E S)} {link : Option P} {xs ys : List (P × E)}
    (hx : InOrder heap link xs) (hy : InOrder heap link ys) : xs = ys := by
  induction hx generalizing ys with
  | nil => cases hy; rfl
  | node hget _ _ ihl ihr =>
      cases hy with
      | node hget' hleft' hright' =>
          obtain rfl := Option.some.inj (hget.symm.trans hget')
          rw [ihl hleft', ihr hright']

theorem inOrder_of_cells {heap : Heap P (Node P E S)} {t : Tree P E S} {parent : Option P}
    (hold : heap.Holds (t.cells parent)) : InOrder heap t.root t.seq := by
  induction t generalizing parent with
  | nil => exact .nil
  | node item left right ihl ihr =>
      obtain ⟨hitem, hleft, hright⟩ := (holds_cells_fork (d := false)).mp hold
      exact .node hitem (ihl hleft) (ihr hright)

theorem Linked.inOrder {sums : Prop} {mem : TreeMem P E S} {seq : List (P × E)}
    (h : Linked sums callback mem seq) :
    InOrder mem.heap mem.tree seq := by
  obtain ⟨t, k, hrep, -, -, rfl⟩ := h
  rw [show mem.tree = t.root from hrep.tree_eq]
  exact inOrder_of_cells hrep.focus

theorem InOrder.root_mem {heap : Heap P (Node P E S)} {link : Option P} {p : P}
    {seq : List (P × E)} (h : InOrder heap link seq) (hp : link = some p) :
    p ∈ seq.map Prod.fst := by
  cases h with
  | nil => cases hp
  | node => simp [Option.some.inj hp]

/-- What a traversal lists is closed under the links. -/
theorem InOrder.child_mem {heap : Heap P (Node P E S)} {link : Option P} {seq : List (P × E)}
    (h : InOrder heap link seq) {p q : P} {n : Node P E S} {side : IsRightChild}
    (hp : p ∈ seq.map Prod.fst) (hn : heap.get p = some n) (hq : n.children side = some q) :
    q ∈ seq.map Prod.fst := by
  induction h with
  | nil => simp at hp
  | @node p' n' left right hget hleft hright ihl ihr =>
      simp only [List.map_append, List.map_cons, List.mem_append, List.mem_cons] at hp ⊢
      rcases hp with hp | rfl | hp
      · exact Or.inl (ihl hp)
      · obtain rfl := Option.some.inj (hn.symm.trans hget)
        cases side with
        | false => exact Or.inl (hleft.root_mem hq)
        | true => exact Or.inr (Or.inr (hright.root_mem hq))
      · exact Or.inr (Or.inr (ihr hp))

theorem InOrder.reached {mem : TreeMem P E S} {link : Option P} {seq : List (P × E)}
    (h : InOrder mem.heap link seq) (hlink : ∀ p, link = some p → Reached mem p) :
    ∀ p ∈ seq.map Prod.fst, Reached mem p := by
  generalize hheap : mem.heap = heap at h
  induction h with
  | nil => simp
  | @node p n left right hget _ _ ihl ihr =>
      have hp := hlink p rfl
      rw [← hheap] at hget
      intro q hq
      simp only [List.map_append, List.map_cons, List.mem_append, List.mem_cons] at hq
      rcases hq with hq | rfl | hq
      · exact ihl (fun r hr => hp.child hget hr) q hq
      · exact hp
      · exact ihr (fun r hr => hp.child hget hr) q hq

/-- The links of a tree lead to its nodes and nowhere else. -/
theorem Linked.reached_iff {sums : Prop} {mem : TreeMem P E S} {seq : List (P × E)}
    (h : Linked sums callback mem seq) {p : P} : Reached mem p ↔ p ∈ seq.map Prod.fst := by
  constructor
  · intro hp
    induction hp with
    | root hroot => exact h.inOrder.root_mem hroot
    | child _ hn hq ih => exact h.inOrder.child_mem ih hn hq
  · exact h.inOrder.reached (fun q hq => .root hq) p

/-- A walk that leads to `p` leads there still, or to a cell that has changed. -/
theorem Reached.agree {mem mem' : TreeMem P E S} {ps : List P} {p : P} (h : Reached mem p)
    (htree : mem'.tree = mem.tree) (hagree : Heap.AgreeOff ps mem.heap mem'.heap) :
    Reached mem' p ∨ ∃ q ∈ ps, Reached mem' q := by
  induction h with
  | root hroot => exact Or.inl (.root (htree.trans hroot))
  | @child p q n side _ hn hq ih =>
      rcases ih with hp | hchanged
      · by_cases hps : p ∈ ps
        · exact Or.inr ⟨p, hps, hp⟩
        · rw [← hagree p hps] at hn
          exact Or.inl (hp.child hn hq)
      · exact Or.inr hchanged

/-- What is freed while it is linked can be reached still. -/
theorem Reached.free {mem : TreeMem P E S} {p : P} (h : Reached mem p) :
    Reached ⟨mem.tree, mem.heap.free p⟩ p := by
  have hagree : Heap.AgreeOff [p] mem.heap (mem.heap.free p) :=
    fun q hq => Heap.get_free_ne _ (by simpa using hq)
  have hcases : Reached ⟨mem.tree, mem.heap.free p⟩ p ∨
      ∃ q ∈ [p], Reached ⟨mem.tree, mem.heap.free p⟩ q := h.agree rfl hagree
  rcases hcases with hp | ⟨q, hq, hreached⟩
  · exact hp
  · exact List.mem_singleton.mp hq ▸ hreached

theorem validNode_of_cells {heap : Heap P (Node P E S)} {t : Tree P E S} {parent : Option P}
    {h : ℕ} (hold : heap.Holds (t.cells parent)) (hrb : t.RedBlack h) (hsum : t.Summed callback) :
    ValidNode callback heap parent t.root h t.ptrs (t.total callback) := by
  induction t generalizing parent h with
  | nil =>
      obtain rfl : h = 0 := hrb
      exact .nil parent
  | node item left right ihl ihr =>
      obtain ⟨hitem, hleft, hright⟩ := (holds_cells_fork (d := false)).mp hold
      obtain ⟨k, hlrb, hrrb, hcolors, rfl⟩ := hrb
      obtain ⟨hisum, hlsum, hrsum⟩ := hsum
      rw [root_node, ptrs_node, ← hisum]
      refine .node hitem rfl (ihl hleft hlrb hlsum) (ihr hright hrrb hrsum) ?_ hisum
      -- A child of a red node is the root of a subtree with a black root
      intro hred side child m hchild hm
      obtain ⟨hlblack, hrblack⟩ := hcolors hred
      have hroot : ∀ {t : Tree P E S} {parent : Option P}, t.color = .black → t.root = some child →
          heap.Holds (t.cells parent) → m.color = .black := by
        intro t parent hblack hroot hold
        obtain ⟨i, a, b, rfl, rfl⟩ := exists_fork_of_root (fun _ => false) hroot
        have hi := (holds_cells_fork.mp hold).1
        obtain rfl := Option.some.inj (hm.symm.trans hi)
        simpa using hblack
      cases side with
      | false => exact hroot hlblack hchild hleft
      | true => exact hroot hrblack hchild hright

theorem Linked.valid {mem : TreeMem P E S} {seq : List (P × E)} (h : Linked True callback mem seq)
    {live : List P} (hlive : ∀ p, p ∈ seq.map Prod.fst ↔ p ∈ live) : Valid callback mem live := by
  obtain ⟨t, k, hrep, hrb, hsum, rfl⟩ := h
  refine ⟨k, t.ptrs, t.total callback, ?_, hrep.nodup, hlive⟩
  rw [show mem.tree = t.root from hrep.tree_eq]
  exact validNode_of_cells hrep.focus hrb (hsum trivial)

/-! ## Runs -/

/-- Nothing that happens to other cells concerns a linked sequence. -/
theorem Linked.agree {sums : Prop} {mem mem' : TreeMem P E S} {seq : List (P × E)} {ps : List P}
    (h : Linked sums callback mem seq) (htree : mem'.tree = mem.tree)
    (hagree : Heap.AgreeOff ps mem.heap mem'.heap) (hdisjoint : ∀ p ∈ ps, p ∉ seq.map Prod.fst) :
    Linked sums callback mem' seq := by
  obtain ⟨t, k, hrep, hrb, hsum, rfl⟩ := h
  exact ⟨t, k, hrep.mono_heap htree hagree hdisjoint, hrb, hsum, rfl⟩

section Lists
variable {p : P} {x : P × E} {seq pre post : List (P × E)}

omit [DecidableEq P] in
theorem sublist_insertSeq (callback : Callback E S) (x : P × E) (seq : List (P × E)) :
    seq.Sublist (insertSeq callback x seq) := by
  have happend : (seq.takeWhile (fun y => goesRight callback x.2 y.2) ++
      seq.dropWhile fun y => goesRight callback x.2 y.2).Sublist (insertSeq callback x seq) :=
    (List.Sublist.refl _).append (List.sublist_cons_self _ _)
  rwa [List.takeWhile_append_dropWhile] at happend

omit [DecidableEq P] in
theorem insertSeq_perm : (insertSeq callback x seq).Perm (x :: seq) := by
  refine List.perm_middle.trans (List.Perm.cons _ ?_)
  rw [List.takeWhile_append_dropWhile]

omit [DecidableEq P] in
theorem insertSeq_eq (hpre : ∀ y ∈ pre, goesRight callback x.2 y.2 = true)
    (hpost : ∀ y ∈ post, goesRight callback x.2 y.2 = false) :
    insertSeq callback x (pre ++ post) = pre ++ x :: post := by
  have hstop : post.takeWhile (fun y => goesRight callback x.2 y.2) = [] ∧
      post.dropWhile (fun y => goesRight callback x.2 y.2) = post := by
    cases post with
    | nil => exact ⟨rfl, rfl⟩
    | cons y post => simp [hpost y (by simp)]
  rw [insertSeq, List.takeWhile_append_of_pos hpre, List.dropWhile_append_of_pos hpre, hstop.1,
    hstop.2, List.append_nil]

theorem removeSeq_eq (hnodup : ((pre ++ x :: post).map Prod.fst).Nodup) :
    removeSeq x.1 (pre ++ x :: post) = pre ++ post := by
  simp only [List.map_append, List.map_cons, List.nodup_append', List.nodup_cons] at hnodup
  obtain ⟨-, ⟨hpost, -⟩, hdisjoint⟩ := hnodup
  have hkeep : ∀ ys : List (P × E), x.1 ∉ ys.map Prod.fst →
      ys.filter (fun y => y.1 ≠ x.1) = ys := by
    intro ys hys
    refine List.filter_eq_self.mpr fun y hy => ?_
    have hne : y.1 ≠ x.1 := fun heq => hys (heq ▸ List.mem_map_of_mem hy)
    simpa using hne
  rw [removeSeq, List.filter_append, List.filter_cons_of_neg (by simp), hkeep _ hpost, hkeep pre]
  exact fun hpre => hdisjoint hpre (by simp)

/-- Removing undoes inserting. -/
theorem removeSeq_insertSeq (hx : x.1 ∉ seq.map Prod.fst) :
    removeSeq x.1 (insertSeq callback x seq) = seq := by
  rw [removeSeq, insertSeq, List.filter_append, List.filter_cons_of_neg (by simp),
    ← List.filter_append, List.takeWhile_append_dropWhile]
  refine List.filter_eq_self.mpr fun y hy => ?_
  have hne : y.1 ≠ x.1 := fun heq => hx (heq ▸ List.mem_map_of_mem hy)
  simpa using hne

theorem mem_removeSeq {q : P} :
    q ∈ (removeSeq p seq).map Prod.fst ↔ q ≠ p ∧ q ∈ seq.map Prod.fst := by
  simp only [removeSeq, List.mem_map, List.mem_filter, decide_eq_true_eq]
  constructor
  · rintro ⟨x, ⟨hx, hne⟩, rfl⟩
    exact ⟨hne, x, hx, rfl⟩
  · rintro ⟨hne, x, hx, rfl⟩
    exact ⟨x, ⟨hx, hne⟩, rfl⟩

end Lists

omit [DecidableEq P] in
/-- A linked node, with what comes before and after it. -/
theorem exists_split {p : P} {seq : List (P × E)} (hp : p ∈ seq.map Prod.fst) :
    ∃ pre e post, seq = pre ++ (p, e) :: post := by
  obtain ⟨⟨p, e⟩, hmem, rfl⟩ := List.mem_map.mp hp
  obtain ⟨pre, post, rfl⟩ := List.append_of_mem hmem
  exact ⟨pre, e, post, rfl⟩

/-- Whatever the comparator answers, a run keeps the tree linked and its nodes the right ones. -/
theorem Run.linked {sums : Prop} (hlaw : sums → LawfulCallback callback) {mem : TreeMem P E S}
    {seq : List (P × E)} (run : Run sums debug callback mem seq) :
    ∃ seq', Linked sums callback mem seq' ∧ seq'.Perm seq := by
  induction run with
  | start heap =>
      refine ⟨[], ⟨nil, 0, ?_, rfl, fun _ => trivial, rfl⟩, .refl _⟩
      exact ⟨rfl, Heap.holds_nil _, Heap.holds_nil _, List.nodup_nil⟩
  | write run hp n ih =>
      obtain ⟨seq', hlinked, hperm⟩ := ih
      refine ⟨seq', hlinked.agree rfl (Heap.AgreeOff.set _ (List.mem_singleton_self _) n) ?_, hperm⟩
      rintro q hq
      rw [List.mem_singleton.mp hq, (hperm.map Prod.fst).mem_iff]
      exact hp
  | @drop mem seq run p hp ih =>
      obtain ⟨seq', hlinked, hperm⟩ := ih
      have hagree : Heap.AgreeOff [p] mem.heap (mem.heap.free p) := fun q hq =>
        Heap.get_free_ne _ (by simpa using hq)
      refine ⟨seq', hlinked.agree rfl hagree ?_, hperm⟩
      rintro q hq
      rw [List.mem_singleton.mp hq, (hperm.map Prod.fst).mem_iff]
      exact hp
  | insert run hp hn hsummary hinsert ih =>
      obtain ⟨seq', hlinked, hperm⟩ := ih
      rw [← (hperm.map Prod.fst).mem_iff] at hp
      obtain ⟨pre, post, rfl, hlinked', -⟩ :=
        (runs_of_eq hinsert).mp (insert_spec hlaw hlinked hn hp hsummary)
      refine ⟨_, hlinked', List.perm_middle.trans ?_⟩
      exact (hperm.cons _).trans insertSeq_perm.symm
  | remove run hp hremove ih =>
      obtain ⟨seq', hlinked, hperm⟩ := ih
      rw [← (hperm.map Prod.fst).mem_iff] at hp
      obtain ⟨pre, e, post, rfl⟩ := exists_split hp
      obtain ⟨hlinked', -⟩ := (runs_of_eq hremove).mp (remove_spec hlaw hlinked)
      refine ⟨_, hlinked', ?_⟩
      rw [← removeSeq_eq (x := (_, e)) hlinked.nodup]
      exact hperm.filter _

/-- The comparators that agree with a total preorder `le`.  Between equivalent elements they may
answer `Less` or not, but they must not do now the one and now the other. -/
structure Consistent (cmp : E → E → Ordering) (le : E → E → Prop) : Prop where
  total : ∀ a b, le a b ∨ le b a
  trans : ∀ a b c, le a b → le b c → le a c
  lt_of_not_le : ∀ new existing, ¬ le existing new → cmp new existing = .lt
  ne_lt_of_not_le : ∀ new existing, ¬ le new existing → cmp new existing ≠ .lt
  tie : ∀ new a b, le new a → le a new → le new b → le b new →
    (cmp new a = .lt ↔ cmp new b = .lt)

namespace Consistent
variable {le : E → E → Prop} {new a b : E}

omit [DecidableEq P]

theorem le_of_goesRight (hcmp : Consistent callback.cmpElement le)
    (h : goesRight callback new a = true) : le a new := by
  by_contra hnot
  simp [goesRight, hcmp.lt_of_not_le new a hnot] at h

theorem le_of_not_goesRight (hcmp : Consistent callback.cmpElement le)
    (h : goesRight callback new a = false) : le new a := by
  by_contra hnot
  exact hcmp.ne_lt_of_not_le new a hnot (by simpa [goesRight] using h)

/-- The answers change only once along a sorted sequence. -/
theorem goesRight_mono (hcmp : Consistent callback.cmpElement le) (hab : le a b)
    (h : goesRight callback new b = true) : goesRight callback new a = true := by
  have hbnew := hcmp.le_of_goesRight h
  have hanew := hcmp.trans _ _ _ hab hbnew
  simp only [goesRight, bne_iff_ne, ne_eq] at h ⊢
  by_cases hnewa : le new a
  · rwa [hcmp.tie new a b hnewa hanew (hcmp.trans _ _ _ hnewa hab) hbnew]
  · exact hcmp.ne_lt_of_not_le new a hnewa

/-- Behind the place of a new element, every element of a sorted sequence answers `Less`. -/
theorem dropWhile_lt (hcmp : Consistent callback.cmpElement le) {seq : List (P × E)}
    (hsorted : seq.Pairwise fun x y => le x.2 y.2) :
    ∀ y ∈ seq.dropWhile (fun y => goesRight callback new y.2),
      callback.cmpElement new y.2 = .lt := by
  induction seq with
  | nil => simp
  | cons x seq ih =>
      obtain ⟨hx, hsorted⟩ := List.pairwise_cons.mp hsorted
      by_cases hright : goesRight callback new x.2 = true
      · simp only [List.dropWhile_cons, hright, if_true]
        exact ih hsorted
      · simp only [List.dropWhile_cons, hright, Bool.false_eq_true, if_false]
        intro y hy
        by_contra hne
        have hyright : goesRight callback new y.2 = true := by simpa [goesRight] using hne
        rcases List.mem_cons.mp hy with rfl | hmem
        · exact hright hyright
        · exact hright (hcmp.goesRight_mono (hx y hmem) hyright)

end Consistent

omit [DecidableEq P] in
theorem insertSeq_sorted {le : E → E → Prop} (hcmp : Consistent callback.cmpElement le)
    {x : P × E} {seq : List (P × E)} (hsorted : seq.Pairwise fun y z => le y.2 z.2) :
    (insertSeq callback x seq).Pairwise fun y z => le y.2 z.2 := by
  have hbefore : ∀ y ∈ seq.takeWhile fun y => goesRight callback x.2 y.2, le y.2 x.2 :=
    fun y hy => hcmp.le_of_goesRight
      (List.mem_takeWhile_imp (p := fun y : P × E => goesRight callback x.2 y.2) hy)
  have hafter : ∀ y ∈ seq.dropWhile fun y => goesRight callback x.2 y.2, le x.2 y.2 :=
    fun y hy => hcmp.le_of_not_goesRight (by simp [goesRight, hcmp.dropWhile_lt hsorted y hy])
  have hsplit := List.takeWhile_append_dropWhile
    (p := fun y => goesRight callback x.2 y.2) (l := seq)
  obtain ⟨hfirst, hlast, hcross⟩ := List.pairwise_append.mp (hsplit.symm ▸ hsorted)
  refine List.pairwise_append.mpr ⟨hfirst, List.pairwise_cons.mpr ⟨hafter, hlast⟩, ?_⟩
  intro y hy z hz
  rcases List.mem_cons.mp hz with rfl | hz
  · exact hbefore y hy
  · exact hcross y hy z hz

/-- With a consistent comparator, `insert` on the tree is `insertSeq` on the sequence. -/
theorem Linked.insert {sums : Prop} (hlaw : sums → LawfulCallback callback) {le : E → E → Prop}
    (hcmp : Consistent callback.cmpElement le) {mem : TreeMem P E S} {seq : List (P × E)}
    (h : Linked sums callback mem seq) (hsorted : seq.Pairwise fun x y => le x.2 y.2) {p : P}
    {n : Node P E S} (hn : mem.heap.get p = some n) (hp : p ∉ seq.map Prod.fst)
    (hsummary : sums → n.summary = callback.elementToSummary n.element) :
    Runs (Node.insert debug callback p) mem fun _ mem' =>
      Linked sums callback mem' (insertSeq callback (p, n.element) seq) ∧
        Heap.AgreeOff (p :: seq.map Prod.fst) mem.heap mem'.heap := by
  refine (insert_spec hlaw h hn hp hsummary).mono ?_
  rintro _ mem' ⟨pre, post, rfl, hlinked, hsplit, hagree⟩
  obtain ⟨hpre, hpost⟩ := hsplit (hsorted.imp fun hab => hcmp.goesRight_mono hab)
  rw [insertSeq_eq hpre hpost]
  exact ⟨hlinked, hagree⟩

/-- `remove` on the tree is `removeSeq` on the sequence. -/
theorem Linked.remove {sums : Prop} (hlaw : sums → LawfulCallback callback) {mem : TreeMem P E S}
    {seq : List (P × E)} (h : Linked sums callback mem seq) {p : P} (hp : p ∈ seq.map Prod.fst) :
    Runs (Node.remove debug callback p) mem fun _ mem' =>
      Linked sums callback mem' (removeSeq p seq) ∧
        (∃ n, mem'.heap.get p = some n ∧ (p, n.element) ∈ seq) ∧
        Heap.AgreeOff (seq.map Prod.fst) mem.heap mem'.heap := by
  obtain ⟨pre, e, post, rfl⟩ := exists_split hp
  refine (remove_spec hlaw h).mono ?_
  rintro _ mem' ⟨hlinked, ⟨n, hn, rfl⟩, hagree⟩
  rw [removeSeq_eq (x := (p, n.element)) h.nodup]
  exact ⟨hlinked, ⟨n, hn, by simp⟩, hagree⟩

/-- With a consistent comparator, the list is the in-order sequence. -/
theorem Run.linked_seq {sums : Prop} (hlaw : sums → LawfulCallback callback)
    {le : E → E → Prop} (hcmp : Consistent callback.cmpElement le) {mem : TreeMem P E S}
    {seq : List (P × E)} (run : Run sums debug callback mem seq) :
    Linked sums callback mem seq ∧ seq.Pairwise fun x y => le x.2 y.2 := by
  induction run with
  | start heap =>
      refine ⟨⟨nil, 0, ?_, rfl, fun _ => trivial, rfl⟩, List.Pairwise.nil⟩
      exact ⟨rfl, Heap.holds_nil _, Heap.holds_nil _, List.nodup_nil⟩
  | write run hp n ih =>
      obtain ⟨hlinked, hsorted⟩ := ih
      refine ⟨hlinked.agree rfl (Heap.AgreeOff.set _ (List.mem_singleton_self _) n) ?_, hsorted⟩
      simpa using hp
  | @drop mem seq run p hp ih =>
      obtain ⟨hlinked, hsorted⟩ := ih
      have hagree : Heap.AgreeOff [p] mem.heap (mem.heap.free p) := fun q hq =>
        Heap.get_free_ne _ (by simpa using hq)
      refine ⟨hlinked.agree rfl hagree ?_, hsorted⟩
      simpa using hp
  | insert run hp hn hsummary hinsert ih =>
      obtain ⟨hlinked, hsorted⟩ := ih
      obtain ⟨hlinked', -⟩ :=
        (runs_of_eq hinsert).mp (hlinked.insert hlaw hcmp hsorted hn hp hsummary)
      exact ⟨hlinked', insertSeq_sorted hcmp hsorted⟩
  | remove run hp hremove ih =>
      obtain ⟨hlinked, hsorted⟩ := ih
      obtain ⟨hlinked', -⟩ := (runs_of_eq hremove).mp (hlinked.remove hlaw hp)
      exact ⟨hlinked', hsorted.filter _⟩

/-! ## The invariants of every run -/

/-- The next operation of a run returns. -/
theorem Run.progress {sums : Prop} (hlaw : sums → LawfulCallback callback) {mem : TreeMem P E S}
    {seq : List (P × E)} (run : Run sums debug callback mem seq) :
    (∀ p n, p ∉ seq.map Prod.fst → mem.heap.get p = some n →
      (sums → n.summary = callback.elementToSummary n.element) →
        ∃ mem', Node.insert debug callback p mem = .ok () mem') ∧
    ∀ p ∈ seq.map Prod.fst, ∃ mem', Node.remove debug callback p mem = .ok () mem' := by
  obtain ⟨seq', hlinked, hperm⟩ := run.linked hlaw
  constructor
  · intro p n hp hn hsummary
    rw [← (hperm.map Prod.fst).mem_iff] at hp
    obtain ⟨_, mem', hrun, -⟩ := insert_spec hlaw hlinked hn hp hsummary
    exact ⟨mem', hrun⟩
  · intro p hp
    rw [← (hperm.map Prod.fst).mem_iff] at hp
    obtain ⟨pre, e, post, rfl⟩ := exists_split hp
    obtain ⟨_, mem', hrun, -⟩ := remove_spec hlaw hlinked
    exact ⟨mem', hrun⟩

/-- In every run, whatever the comparator answers, the tree stays valid and links exactly the nodes
inserted and not removed, and the next operation returns. -/
theorem Run.tree_valid [LawfulCallback callback] {mem : TreeMem P E S} {seq : List (P × E)}
    (run : Run True debug callback mem seq) :
    Valid callback mem (seq.map Prod.fst) ∧
      (∀ p n, p ∉ seq.map Prod.fst → mem.heap.get p = some n →
        n.summary = callback.elementToSummary n.element →
          ∃ mem', Node.insert debug callback p mem = .ok () mem') ∧
      ∀ p ∈ seq.map Prod.fst, ∃ mem', Node.remove debug callback p mem = .ok () mem' := by
  obtain ⟨seq', hlinked, hperm⟩ := run.linked fun _ => inferInstance
  obtain ⟨hinsert, hremove⟩ := run.progress fun _ => inferInstance
  refine ⟨hlinked.valid fun p => (hperm.map Prod.fst).mem_iff, ?_, hremove⟩
  exact fun p n hp hn hsummary => hinsert p n hp hn fun _ => hsummary

/-- Sums of integers, with a comparator that is no order at all. -/
def parityCallback : Callback Int Int where
  zeroSummary := 0
  elementToSummary := id
  addAssignSummary := (· + ·)
  subAssignSummary := (· - ·)
  cmpElement new existing := if (new + existing) % 2 = 0 then .lt else .gt

instance : LawfulCallback parityCallback where
  add_comm := Int.add_comm
  add_assoc := Int.add_assoc
  zero_add := Int.zero_add
  add_sub_cancel := Int.add_sub_cancel

/-- Three insertions and a removal. -/
theorem run_after_four : ∃ mem : TreeMem ℕ Int Int, mem.tree = some 2 ∧
    Run True true parityCallback mem [(2, 7), (1, 4)] := by
  have h₀ : Run True true parityCallback
      (⟨none, ⟨[(0, .new 5 5), (1, .new 4 4), (2, .new 7 7)]⟩⟩ : TreeMem ℕ Int Int) [] := .start _
  have h₁ := h₀.insert (p := 0) (by decide) rfl (fun _ => rfl) rfl
  have h₂ := h₁.insert (p := 1) (by decide) rfl (fun _ => rfl) rfl
  have h₃ := h₂.insert (p := 2) (by decide) rfl (fun _ => rfl) rfl
  have h₄ := h₃.remove (p := 0) (by decide) rfl
  exact ⟨_, rfl, h₄⟩

theorem tree_valid_after_four : ∃ mem : TreeMem ℕ Int Int, mem.tree = some 2 ∧
    Valid parityCallback mem [2, 1] := by
  obtain ⟨mem, htree, run⟩ := run_after_four
  exact ⟨mem, htree, run.tree_valid.1⟩

theorem Represents.inOrder {mem : TreeMem P E S} {c : Context P E S} {t : Tree P E S}
    (hrep : Represents mem c t) : InOrder mem.heap mem.tree (c.pre ++ t.seq ++ c.post) := by
  obtain ⟨htree, -, hfocus, -⟩ := represents_fill.mp hrep
  rw [← c.seq_fill, htree]
  exact inOrder_of_cells hfocus

/-- With a consistent comparator the in-order sequence is a stably ordered list: `insert` and
`remove` do to it what `insertSeq` and `removeSeq` do.  On the way, a rotation leaves the sequence
of its tree alone, and an exchange swaps two neighbours in it. -/
theorem Run.refines_list {le : E → E → Prop} (hcmp : Consistent callback.cmpElement le) :
    (∀ (mem : TreeMem P E S) (seq : List (P × E)), Run False debug callback mem seq →
      InOrder mem.heap mem.tree seq ∧ (seq.map Prod.fst).Nodup ∧
      (∀ p n, p ∉ seq.map Prod.fst → mem.heap.get p = some n →
        ∃ mem' before after, Node.insert debug callback p mem = .ok () mem' ∧
          InOrder mem'.heap mem'.tree (insertSeq callback (p, n.element) seq) ∧
          insertSeq callback (p, n.element) seq = before ++ (p, n.element) :: after ∧
          seq = before ++ after ∧
          (∀ y ∈ before, callback.cmpElement n.element y.2 ≠ .lt) ∧
          ∀ y ∈ after, callback.cmpElement n.element y.2 = .lt) ∧
      ∀ p ∈ seq.map Prod.fst, ∃ mem', Node.remove debug callback p mem = .ok () mem' ∧
        InOrder mem'.heap mem'.tree (removeSeq p seq)) ∧
    (∀ (mem : TreeMem P E S) (c : Context P E S) (d : IsRightChild) (i j : Item P E S)
      (m x y : Tree P E S), Represents mem c (fork (!d) i (fork d j m x) y) →
        ∃ mem' seq, Node.rotate debug callback i.ptr d mem = .ok () mem' ∧
          InOrder mem.heap mem.tree seq ∧ InOrder mem'.heap mem'.tree seq) ∧
    ∀ (mem : TreeMem P E S) (c : Context P E S) (i pred : Item P E S) (path : Spine P E S)
      (left right : Tree P E S) (child : P),
      Represents mem c (node i (path.fill (node pred left nil)) right) →
      (path.fill (node pred left nil)).root = some child →
        ∃ mem' before after,
          Node.exchangeWithPred debug callback i.ptr child c.ptr mem = .ok () mem' ∧
          InOrder mem.heap mem.tree (before ++ pred.entry :: i.entry :: after) ∧
          InOrder mem'.heap mem'.tree (before ++ i.entry :: pred.entry :: after) := by
  refine ⟨?_, ?_, ?_⟩
  · intro mem seq run
    obtain ⟨hlinked, hsorted⟩ := run.linked_seq False.elim hcmp
    obtain ⟨hinsert, hremove⟩ := run.progress False.elim
    refine ⟨hlinked.inOrder, hlinked.nodup, ?_, ?_⟩
    · intro p n hp hn
      obtain ⟨mem', hrun⟩ := hinsert p n hp hn False.elim
      have hinserted := (run.insert hp hn False.elim hrun).linked_seq False.elim hcmp
      refine ⟨mem', _, _, hrun, hinserted.1.inOrder, rfl, List.takeWhile_append_dropWhile.symm, ?_,
        hcmp.dropWhile_lt hsorted⟩
      intro y hy
      simpa [goesRight] using List.mem_takeWhile_imp hy
    · intro p hp
      obtain ⟨mem', hrun⟩ := hremove p hp
      exact ⟨mem', hrun, ((run.remove hp hrun).linked_seq False.elim hcmp).1.inOrder⟩
  · intro mem c d i j m x y hrep
    obtain ⟨_, mem', hrun, hrep', -⟩ := @rotate_spec P E S _ debug callback _ _ _ _ _ _ _ _ hrep
    refine ⟨mem', _, hrun, hrep.inOrder, ?_⟩
    rw [← seq_rotated callback d i j m x y]
    exact hrep'.inOrder
  · intro mem c i pred path left right child hrep hchild
    obtain ⟨_, mem', hrun, hrep', -⟩ := @exchangeWithPred_spec P E S _ debug callback _ _ _ _ _ _
      _ _ hrep hchild
    refine ⟨mem', c.pre ++ path.seq ++ left.seq, right.seq ++ c.post, hrun, ?_, ?_⟩
    · simpa [Spine.seq_fill] using hrep.inOrder
    · simpa [Spine.seq_fill, Item.entry] using hrep'.inOrder

/-- A comparator that puts new elements before equal ones, and no summaries. -/
def newestFirst : Callback ℕ Unit where
  zeroSummary := ()
  elementToSummary _ := ()
  addAssignSummary _ _ := ()
  subAssignSummary _ _ := ()
  cmpElement new existing := if new ≤ existing then .lt else .gt

theorem newestFirst_consistent : Consistent newestFirst.cmpElement (· ≤ ·) where
  total := Nat.le_total
  trans _ _ _ := Nat.le_trans
  lt_of_not_le new existing h := by
    simp only [newestFirst]
    rw [if_pos (by omega)]
  ne_lt_of_not_le new existing h := by
    simp only [newestFirst]
    rw [if_neg h]
    simp
  tie new a b hna _ hnb _ := by simp [newestFirst, hna, hnb]

/-- Three insertions with a tie. -/
theorem run_ties : ∃ mem : TreeMem ℕ ℕ Unit, mem.tree = some 0 ∧
    Run False true newestFirst mem [(2, 5), (0, 5), (1, 6)] := by
  have h₀ : Run False true newestFirst
      (⟨none, ⟨[(0, .new 5 ()), (1, .new 6 ()), (2, .new 5 ())]⟩⟩ : TreeMem ℕ ℕ Unit) [] := .start _
  have h₁ := h₀.insert (p := 0) (by decide) rfl False.elim rfl
  have h₂ := h₁.insert (p := 1) (by decide) rfl False.elim rfl
  have h₃ := h₂.insert (p := 2) (by decide) rfl False.elim rfl
  exact ⟨_, rfl, h₃⟩

theorem refines_list_ties : ∃ mem : TreeMem ℕ ℕ Unit, mem.tree = some 0 ∧
    InOrder mem.heap mem.tree [(2, 5), (0, 5), (1, 6)] := by
  obtain ⟨mem, htree, run⟩ := run_ties
  exact ⟨mem, htree, ((Run.refines_list newestFirst_consistent).1 _ _ run).1⟩

end Interlock.RbTree
