import Interlock.RbTree.Node

/-!
# Trees and contexts

The pointer structure of `Node.lean` unfolds to an inductive `Tree` whose nodes remember their
address.  A place inside a tree is a `Context`: the path from the hole up to the root with the
siblings passed on the way.  Both are written with sides, `fork side item near far` being the node
with `near` on `side`, so that an argument about one side is an argument about the other.

* `seq` is the in-order sequence, addresses with elements.
* `RedBlack t h`: no red node has a red child and every path to nil has `h` black nodes.  A root
  may be red.
* `Summed`: every node's summary is the total of its subtree.
* `cells`: the memory cells that a tree (or a context) occupies.
-/

namespace Interlock.RbTree

open Memory

/-- What a node stores besides its links. -/
structure Item (P E S : Type) where
  ptr : P
  color : Color
  summary : S
  element : E

inductive Tree (P E S : Type) where
  | nil
  | node (item : Item P E S) (left right : Tree P E S)

/-- A tree with a hole: `frame side item sibling up` has the hole on `side` of `item`. -/
inductive Context (P E S : Type) where
  | top
  | frame (side : IsRightChild) (item : Item P E S) (sibling : Tree P E S) (up : Context P E S)

/-- Callbacks whose summaries form a commutative structure in which subtracting undoes adding. -/
class LawfulCallback {E S : Type} (callback : Callback E S) : Prop where
  add_comm : ∀ a b, callback.addAssignSummary a b = callback.addAssignSummary b a
  add_assoc : ∀ a b c, callback.addAssignSummary (callback.addAssignSummary a b) c =
    callback.addAssignSummary a (callback.addAssignSummary b c)
  zero_add : ∀ a, callback.addAssignSummary callback.zeroSummary a = a
  add_sub_cancel : ∀ a b, callback.subAssignSummary (callback.addAssignSummary a b) b = a

variable {P E S : Type}

/-- The number of black nodes a node of this colour adds to a path. -/
def Color.weight : Color → ℕ
  | .black => 1
  | .red => 0

@[simp] theorem Color.weight_black : Color.black.weight = 1 := rfl
@[simp] theorem Color.weight_red : Color.red.weight = 0 := rfl

/-- The two children of a node, `near` being the one on `side`. -/
def sides (side : IsRightChild) (near far : Option P) : IsRightChild → Option P :=
  fun s => if s = side then near else far

section Sides

@[simp] theorem sides_self (d : IsRightChild) (a b : Option P) : sides d a b d = a := by
  simp [sides]

@[simp] theorem sides_not (d : IsRightChild) (a b : Option P) : sides d a b (!d) = b := by
  cases d <;> simp [sides]

@[simp] theorem sides_true (a b : Option P) : sides false a b true = b := rfl

@[simp] theorem sides_not_left (d : IsRightChild) (a b : Option P) : sides (!d) a b d = b := by
  cases d <;> simp [sides]

@[simp] theorem sides_swap (d : IsRightChild) (a b : Option P) : sides (!d) a b = sides d b a := by
  funext s; cases d <;> cases s <;> rfl

@[simp] theorem update_sides_self (d : IsRightChild) (a b v : Option P) :
    Function.update (sides d a b) d v = sides d v b := by
  funext s; cases d <;> cases s <;> rfl

@[simp] theorem update_sides_not (d : IsRightChild) (a b v : Option P) :
    Function.update (sides d a b) (!d) v = sides d a v := by
  funext s; cases d <;> cases s <;> rfl

end Sides

/-- The cell contents of an item below `parent`. -/
def Item.toNode (item : Item P E S) (parent : Option P) (children : IsRightChild → Option P) :
    Node P E S where
  children := children
  parent := parent
  color := item.color
  summary := item.summary
  element := item.element

section ToNode
variable (item : Item P E S) (parent : Option P) (children : IsRightChild → Option P)

@[simp] theorem Item.toNode_children : (item.toNode parent children).children = children := rfl
@[simp] theorem Item.toNode_parent : (item.toNode parent children).parent = parent := rfl
@[simp] theorem Item.toNode_color : (item.toNode parent children).color = item.color := rfl
@[simp] theorem Item.toNode_summary : (item.toNode parent children).summary = item.summary := rfl
@[simp] theorem Item.toNode_element : (item.toNode parent children).element = item.element := rfl

end ToNode

/-- The entry of an item in the in-order sequence. -/
def Item.entry (item : Item P E S) : P × E := (item.ptr, item.element)

@[simp] theorem Item.entry_fst (item : Item P E S) : item.entry.1 = item.ptr := rfl

/-! ## Trees -/

namespace Tree

/-- The node with the subtree `near` on `side` and `far` on the other side. -/
def fork (side : IsRightChild) (item : Item P E S) (near far : Tree P E S) : Tree P E S :=
  match side with
  | false => node item near far
  | true => node item far near

def root : Tree P E S → Option P
  | nil => none
  | node item _ _ => some item.ptr

/-- Nil counts as black. -/
def color : Tree P E S → Color
  | nil => .black
  | node item _ _ => item.color

/-- The in-order sequence. -/
def seq : Tree P E S → List (P × E)
  | nil => []
  | node item left right => left.seq ++ item.entry :: right.seq

def ptrs (t : Tree P E S) : List P := t.seq.map Prod.fst

/-- The number of nodes on the longest path to nil. -/
def height : Tree P E S → ℕ
  | nil => 0
  | node _ left right => max left.height right.height + 1

/-- No red node has a red child, and all paths to nil have `h` black nodes. -/
def RedBlack : Tree P E S → ℕ → Prop
  | nil, h => h = 0
  | node item left right, h => ∃ k, left.RedBlack k ∧ right.RedBlack k ∧
      (item.color = .red → left.color = .black ∧ right.color = .black) ∧ h = k + item.color.weight

/-- The sum of `elementToSummary` over all nodes. -/
def total (callback : Callback E S) : Tree P E S → S
  | nil => callback.zeroSummary
  | node item left right => callback.addAssignSummary
      (callback.addAssignSummary (left.total callback) (callback.elementToSummary item.element))
      (right.total callback)

/-- Every node's summary is the total of its subtree. -/
def Summed (callback : Callback E S) : Tree P E S → Prop
  | nil => True
  | node item left right => item.summary = (node item left right).total callback ∧
      left.Summed callback ∧ right.Summed callback

/-- The cells of a tree that hangs below `parent`. -/
def cells (parent : Option P) : Tree P E S → List (P × Node P E S)
  | nil => []
  | node item left right => (item.ptr, item.toNode parent (sides false left.root right.root)) ::
      (left.cells (some item.ptr) ++ right.cells (some item.ptr))

/-- Every tree but `nil` is a fork, on whichever side. -/
theorem eq_nil_or_fork (side : IsRightChild) (t : Tree P E S) :
    t = nil ∨ ∃ item near far, t = fork side item near far := by
  cases t with
  | nil => exact Or.inl rfl
  | node item left right =>
      cases side
      · exact Or.inr ⟨item, left, right, rfl⟩
      · exact Or.inr ⟨item, right, left, rfl⟩

theorem fork_not (side : IsRightChild) (item : Item P E S) (near far : Tree P E S) :
    fork (!side) item near far = fork side item far near := by
  cases side <;> rfl

@[simp] theorem root_nil : (nil : Tree P E S).root = none := rfl
@[simp] theorem root_node (item : Item P E S) (l r : Tree P E S) :
    (node item l r).root = some item.ptr := rfl
@[simp] theorem root_fork (side : IsRightChild) (item : Item P E S) (near far : Tree P E S) :
    (fork side item near far).root = some item.ptr := by cases side <;> rfl

/-- The node at the root, taken apart on a side that may depend on the node. -/
theorem exists_fork_of_root {t : Tree P E S} {p : P} (side : Item P E S → IsRightChild)
    (h : t.root = some p) : ∃ item near far, item.ptr = p ∧ t = fork (side item) item near far := by
  cases t with
  | nil => simp at h
  | node item left right =>
      cases hside : side item
      · exact ⟨item, left, right, by simpa using h, by rw [hside]; rfl⟩
      · exact ⟨item, right, left, by simpa using h, by rw [hside]; rfl⟩

theorem root_eq_none {t : Tree P E S} : t.root = none ↔ t = nil := by
  cases t <;> simp

@[simp] theorem color_nil : (nil : Tree P E S).color = .black := rfl
@[simp] theorem color_node (item : Item P E S) (l r : Tree P E S) :
    (node item l r).color = item.color := rfl
@[simp] theorem color_fork (side : IsRightChild) (item : Item P E S) (near far : Tree P E S) :
    (fork side item near far).color = item.color := by cases side <;> rfl

@[simp] theorem seq_nil : (nil : Tree P E S).seq = [] := rfl
@[simp] theorem seq_node (item : Item P E S) (l r : Tree P E S) :
    (node item l r).seq = l.seq ++ item.entry :: r.seq := rfl
@[simp] theorem ptrs_nil : (nil : Tree P E S).ptrs = [] := rfl
@[simp] theorem ptrs_node (item : Item P E S) (l r : Tree P E S) :
    (node item l r).ptrs = l.ptrs ++ item.ptr :: r.ptrs := by simp [ptrs]

theorem ptrs_fork_perm (side : IsRightChild) (item : Item P E S) (near far : Tree P E S) :
    (fork side item near far).ptrs.Perm (item.ptr :: (near.ptrs ++ far.ptrs)) := by
  cases side
  · simp [fork, List.perm_middle]
  · simp only [fork, ptrs_node]
    exact List.perm_middle.trans ((List.perm_append_comm).cons _)

@[simp] theorem mem_ptrs_fork {side : IsRightChild} {item : Item P E S} {near far : Tree P E S}
    {p : P} :
    p ∈ (fork side item near far).ptrs ↔ p = item.ptr ∨ p ∈ near.ptrs ∨ p ∈ far.ptrs := by
  rw [(ptrs_fork_perm side item near far).mem_iff]
  simp

theorem redBlack_fork {side : IsRightChild} {item : Item P E S} {near far : Tree P E S} {h : ℕ} :
    (fork side item near far).RedBlack h ↔ ∃ k, near.RedBlack k ∧ far.RedBlack k ∧
      (item.color = .red → near.color = .black ∧ far.color = .black) ∧
        h = k + item.color.weight := by
  cases side
  · rfl
  · simp only [fork, RedBlack]
    constructor <;> rintro ⟨k, h₁, h₂, hred, rfl⟩ <;>
      exact ⟨k, h₂, h₁, fun h => (hred h).symm, rfl⟩

@[simp] theorem total_recolor (callback : Callback E S) (side : IsRightChild) (item : Item P E S)
    (color : Color) (near far : Tree P E S) :
    (fork side { item with color := color } near far).total callback =
      (fork side item near far).total callback := by
  cases side <;> rfl

@[simp] theorem summed_recolor (callback : Callback E S) (side : IsRightChild) (item : Item P E S)
    (color : Color) (near far : Tree P E S) :
    (fork side { item with color := color } near far).Summed callback ↔
      (fork side item near far).Summed callback := by
  cases side <;> rfl

@[simp] theorem seq_recolor (side : IsRightChild) (item : Item P E S) (color : Color)
    (near far : Tree P E S) :
    (fork side { item with color := color } near far).seq = (fork side item near far).seq := by
  cases side <;> rfl

/-- Red and black are all the colours there are. -/
theorem color_eq_red {color : Color} (h : color ≠ .black) : color = .red := by
  cases color
  · exact absurd rfl h
  · rfl

/-- A tree has one black height. -/
theorem RedBlack.unique {t : Tree P E S} {h k : ℕ} (hh : t.RedBlack h) (hk : t.RedBlack k) :
    h = k := by
  induction t generalizing h k with
  | nil => exact Eq.trans hh (Eq.symm hk)
  | node item left right ihl _ =>
      obtain ⟨a, ha, -, -, rfl⟩ := hh
      obtain ⟨b, hb, -, -, rfl⟩ := hk
      rw [ihl ha hb]

theorem mem_keys_cells {t : Tree P E S} {parent : Option P} {p : P} :
    p ∈ (t.cells parent).map Prod.fst ↔ p ∈ t.ptrs := by
  induction t generalizing parent with
  | nil => simp [cells]
  | node item left right ihl ihr =>
      simp only [cells, List.map_cons, List.map_append, List.mem_cons, List.mem_append, ihl, ihr,
        ptrs_node]
      tauto

/-- Trees of black height zero with a black root are empty. -/
theorem RedBlack.eq_nil {t : Tree P E S} (ht : t.RedBlack 0) (hblack : t.color = .black) :
    t = nil := by
  cases t with
  | nil => rfl
  | node item left right =>
      obtain ⟨k, -, -, -, hk⟩ := ht
      rw [show item.color = .black from hblack] at hk
      simp [Color.weight] at hk

/-- Where the black height is positive, there is a node. -/
theorem RedBlack.exists_fork {t : Tree P E S} {h : ℕ} (side : IsRightChild)
    (ht : t.RedBlack (h + 1)) : ∃ item near far, t = fork side item near far := by
  rcases eq_nil_or_fork side t with rfl | hfork
  · exact absurd ht (by simp [RedBlack])
  · exact hfork

section Cells
variable [DecidableEq P] {h : Heap P (Node P E S)} {parent : Option P}

theorem holds_cells_fork {d : IsRightChild} {item : Item P E S} {near far : Tree P E S} :
    h.Holds ((fork d item near far).cells parent) ↔
      h.get item.ptr = some (item.toNode parent (sides d near.root far.root)) ∧
        h.Holds (near.cells (some item.ptr)) ∧ h.Holds (far.cells (some item.ptr)) := by
  cases d
  · simp [fork, cells]
  · simp only [fork, cells, Heap.holds_cons, Heap.holds_append]
    rw [show sides false far.root near.root = sides true near.root far.root from
      sides_swap true far.root near.root]
    tauto

theorem holds_cells_set {t : Tree P E S} (hold : h.Holds (t.cells parent)) {p : P}
    (n : Node P E S) (hp : p ∉ t.ptrs) : (h.set p n).Holds (t.cells parent) :=
  hold.set n (by rwa [mem_keys_cells])

end Cells

end Tree

/-! ## Contexts -/

namespace Context

open Interlock.RbTree.Tree (fork)

def fill : Context P E S → Tree P E S → Tree P E S
  | top, t => t
  | frame side item sibling up, t => up.fill (fork side item t sibling)

/-- The parent of the hole. -/
def ptr : Context P E S → Option P
  | top => none
  | frame _ item _ _ => some item.ptr

/-- The slot of the hole. -/
def slot : Context P E S → Node.Slot P
  | top => none
  | frame side item _ _ => some (item.ptr, side)

/-- The colour of the hole's parent; above the root there is nothing red. -/
def color : Context P E S → Color
  | top => .black
  | frame _ item _ _ => item.color

/-- The root pointer of the filled context, given the root of the filling. -/
def rootFor (hole : Option P) : Context P E S → Option P
  | top => hole
  | frame _ item _ up => up.rootFor (some item.ptr)

/-- What comes before the hole in the in-order sequence. -/
def pre : Context P E S → List (P × E)
  | top => []
  | frame false _ _ up => up.pre
  | frame true item sibling up => up.pre ++ sibling.seq ++ [item.entry]

/-- What comes after the hole in the in-order sequence. -/
def post : Context P E S → List (P × E)
  | top => []
  | frame false item sibling up => item.entry :: sibling.seq ++ up.post
  | frame true _ _ up => up.post

def ptrs (c : Context P E S) : List P := (c.pre ++ c.post).map Prod.fst

def depth : Context P E S → ℕ
  | top => 0
  | frame _ _ _ up => up.depth + 1

/-- The colour and height conditions on a context whose hole has black height `h`, apart from the
colour of the hole itself. -/
def RedBlack : Context P E S → ℕ → Prop
  | top, _ => True
  | frame _ item sibling up, h => sibling.RedBlack h ∧
      (item.color = .red → sibling.color = .black ∧ up.color = .black) ∧
        up.RedBlack (h + item.color.weight)

/-- The summaries on the path are right for a hole of total `hole`. -/
def Summed (callback : Callback E S) : Context P E S → S → Prop
  | top, _ => True
  | frame _ item sibling up, hole =>
      let subtotal := callback.addAssignSummary
        (callback.addAssignSummary hole (callback.elementToSummary item.element))
        (sibling.total callback)
      item.summary = subtotal ∧ sibling.Summed callback ∧ up.Summed callback subtotal

/-- The path was found by going right exactly where `f` holds. -/
def Searched (f : E → Bool) : Context P E S → Prop
  | top => True
  | frame side item _ up => side = f item.element ∧ up.Searched f

/-- The cells of a context, given the root of the filling. -/
def cells (hole : Option P) : Context P E S → List (P × Node P E S)
  | top => []
  | frame side item sibling up => (item.ptr, item.toNode up.ptr (sides side hole sibling.root)) ::
      (sibling.cells (some item.ptr) ++ up.cells (some item.ptr))

@[simp] theorem fill_top (t : Tree P E S) : (top : Context P E S).fill t = t := rfl

@[simp] theorem fill_frame (side : IsRightChild) (item : Item P E S) (sibling : Tree P E S)
    (up : Context P E S) (t : Tree P E S) :
    (frame side item sibling up).fill t = up.fill (fork side item t sibling) := rfl

section Hole
variable (side : IsRightChild) (item : Item P E S) (sibling : Tree P E S) (up : Context P E S)

@[simp] theorem ptr_top : (top : Context P E S).ptr = none := rfl
@[simp] theorem ptr_frame : (frame side item sibling up).ptr = some item.ptr := rfl
@[simp] theorem slot_top : (top : Context P E S).slot = none := rfl
@[simp] theorem slot_frame : (frame side item sibling up).slot = some (item.ptr, side) := rfl

end Hole

theorem seq_fill (c : Context P E S) (t : Tree P E S) :
    (c.fill t).seq = c.pre ++ t.seq ++ c.post := by
  induction c generalizing t with
  | top => simp [pre, post]
  | frame side item sibling up ih =>
      rw [fill_frame, ih]
      cases side <;> simp [pre, post, fork]

theorem ptrs_fill_perm (c : Context P E S) (t : Tree P E S) :
    (c.fill t).ptrs.Perm (c.ptrs ++ t.ptrs) := by
  simp only [Tree.ptrs, ptrs, seq_fill, List.map_append, List.append_assoc]
  exact List.Perm.append_left _ List.perm_append_comm

/-- Only the in-order sequence of the filling matters for the addresses. -/
theorem ptrs_fill_congr (c : Context P E S) {t t' : Tree P E S} (h : t.ptrs = t'.ptrs) :
    (c.fill t).ptrs = (c.fill t').ptrs := by
  simp only [Tree.ptrs] at h
  simp [Tree.ptrs, seq_fill, h]

theorem seq_fill_congr (c : Context P E S) {t t' : Tree P E S} (h : t.seq = t'.seq) :
    (c.fill t).seq = (c.fill t').seq := by
  rw [seq_fill, seq_fill, h]

theorem ptrs_frame_perm (side : IsRightChild) (item : Item P E S) (sibling : Tree P E S)
    (up : Context P E S) :
    (frame side item sibling up).ptrs.Perm (item.ptr :: (sibling.ptrs ++ up.ptrs)) := by
  cases side
  · simp only [ptrs, pre, post, List.map_append, List.map_cons, Item.entry_fst, Tree.ptrs,
      List.cons_append]
    refine List.perm_middle.trans (List.Perm.cons _ ?_)
    rw [← List.append_assoc, ← List.append_assoc]
    exact List.perm_append_comm.append_right _
  · simp only [ptrs, pre, post, List.map_append, List.map_cons, Item.entry_fst,
      Tree.ptrs, List.append_assoc, List.cons_append, List.nil_append]
    rw [← List.append_assoc]
    refine List.perm_middle.trans (List.Perm.cons _ ?_)
    rw [← List.append_assoc]
    exact List.perm_append_comm.append_right _

@[simp] theorem mem_ptrs_frame {side : IsRightChild} {item : Item P E S} {sibling : Tree P E S}
    {up : Context P E S} {p : P} :
    p ∈ (frame side item sibling up).ptrs ↔ p = item.ptr ∨ p ∈ sibling.ptrs ∨ p ∈ up.ptrs := by
  rw [(ptrs_frame_perm side item sibling up).mem_iff]
  simp

@[simp] theorem ptrs_top : (top : Context P E S).ptrs = [] := rfl

theorem mem_keys_cells {c : Context P E S} {hole : Option P} {p : P} :
    p ∈ (c.cells hole).map Prod.fst ↔ p ∈ c.ptrs := by
  induction c generalizing hole with
  | top => simp [cells]
  | frame side item sibling up ih =>
      simp only [cells, List.map_cons, List.map_append, List.mem_cons, List.mem_append, ih,
        Tree.mem_keys_cells, mem_ptrs_frame]

theorem redBlack_fill {c : Context P E S} {t : Tree P E S} {h : ℕ} (hc : c.RedBlack h)
    (ht : t.RedBlack h) (hcolor : t.color = .red → c.color = .black) :
    ∃ k, (c.fill t).RedBlack k := by
  induction c generalizing t h with
  | top => exact ⟨h, ht⟩
  | frame side item sibling up ih =>
      obtain ⟨hsib, hred, hup⟩ := hc
      refine ih hup (t := fork side item t sibling) ?_ (by simpa using fun h => (hred h).2)
      refine Tree.redBlack_fork.mpr ⟨h, ht, hsib, fun hitem => ⟨?_, (hred hitem).1⟩, rfl⟩
      cases htc : t.color with
      | black => rfl
      | red => exact absurd (hcolor htc) (by simp [color, hitem])

theorem redBlack_of_fill {c : Context P E S} {t : Tree P E S} {k : ℕ}
    (h : (c.fill t).RedBlack k) :
    ∃ h, c.RedBlack h ∧ t.RedBlack h ∧ (t.color = .red → c.color = .black) := by
  induction c generalizing t with
  | top => exact ⟨k, trivial, h, fun _ => rfl⟩
  | frame side item sibling up ih =>
      obtain ⟨h', hup, hfork, hcolor⟩ := ih h
      obtain ⟨h, ht, hsib, hred, rfl⟩ := Tree.redBlack_fork.mp hfork
      simp only [Tree.color_fork] at hcolor
      refine ⟨h, ⟨hsib, fun hitem => ⟨(hred hitem).2, hcolor hitem⟩, hup⟩, ht, fun htc => ?_⟩
      cases hic : item.color with
      | black => exact hic
      | red => exact absurd (hred hic).1 (by simp [htc])

/-- Every entry of the sequence is the root of some focus, with the sequence split around it. -/
theorem exists_focus {t : Tree P E S} (c : Context P E S) {pre post : List (P × E)} {x : P × E}
    (h : t.seq = pre ++ x :: post) :
    ∃ (c' : Context P E S) (i : Item P E S) (a b : Tree P E S), c.fill t = c'.fill (.node i a b) ∧
      i.entry = x ∧ c'.pre ++ a.seq = c.pre ++ pre ∧ b.seq ++ c'.post = post ++ c.post := by
  induction t generalizing c pre post with
  | nil => simp at h
  | node item left right ihl ihr =>
      rw [Tree.seq_node] at h
      rcases List.append_eq_append_iff.mp h with ⟨rest, hpre, hrest⟩ | ⟨rest, hleft, hrest⟩
      · cases rest with
        | nil =>
            simp only [List.append_nil, List.nil_append, List.cons.injEq] at hpre hrest
            exact ⟨c, item, left, right, rfl, hrest.1, by rw [hpre], by rw [hrest.2]⟩
        | cons y rest =>
            simp only [List.cons_append, List.cons.injEq] at hrest
            obtain ⟨rfl, hright⟩ := hrest
            obtain ⟨c', i, a, b, hfill, hi, hpre', hpost'⟩ := ihr (frame true item left c) hright
            exact ⟨c', i, a, b, hfill, hi, by simpa [Context.pre, hpre] using hpre',
              by simpa [Context.post] using hpost'⟩
      · cases rest with
        | nil =>
            simp only [List.append_nil, List.nil_append, List.cons.injEq] at hleft hrest
            exact ⟨c, item, left, right, rfl, hrest.1.symm, by rw [hleft], by rw [hrest.2]⟩
        | cons y rest =>
            simp only [List.cons_append, List.cons.injEq] at hrest
            obtain ⟨rfl, hpost⟩ := hrest
            obtain ⟨c', i, a, b, hfill, hi, hpre', hpost'⟩ := ihl (frame false item right c) hleft
            exact ⟨c', i, a, b, hfill, hi, by simpa [Context.pre] using hpre',
              by simpa [Context.post, hpost] using hpost'⟩

/-- A search for a boundary that exists in the sequence ends at it. -/
theorem split_of_searched {c : Context P E S} {f : E → Bool} (hc : c.Searched f)
    (hmono : (c.pre ++ c.post).Pairwise fun a b => f b.2 → f a.2) :
    (∀ x ∈ c.pre, f x.2 = true) ∧ ∀ x ∈ c.post, f x.2 = false := by
  induction c with
  | top => simp [pre, post]
  | frame side item sibling up ih =>
      obtain ⟨hside, hup⟩ := hc
      cases side
      · simp only [pre, post, List.cons_append, List.pairwise_append, List.pairwise_cons,
          List.mem_cons, List.mem_append] at hmono ih ⊢
        obtain ⟨hpre, ⟨hitem, -, hpost, -⟩, hcross⟩ := hmono
        obtain ⟨ihpre, ihpost⟩ :=
          ih hup ⟨hpre, hpost, fun a ha b hb => hcross a ha b (by simp [hb])⟩
        refine ⟨ihpre, ?_⟩
        rintro x (rfl | hx | hx)
        · exact hside.symm
        · by_contra hne
          exact absurd (hitem x (Or.inl hx) (by simpa using hne)) (by simp [Item.entry, ← hside])
        · exact ihpost x hx
      · simp only [pre, post, List.append_assoc, List.pairwise_append, List.pairwise_cons,
          List.mem_cons, List.mem_append] at hmono ih ⊢
        obtain ⟨hpre, ⟨-, ⟨-, hpost, -⟩, hsib⟩, hcross⟩ := hmono
        obtain ⟨ihpre, ihpost⟩ :=
          ih hup ⟨hpre, hpost, fun a ha b hb => hcross a ha b (by simp [hb])⟩
        refine ⟨?_, ihpost⟩
        rintro x (hx | hx | rfl | hx)
        · exact ihpre x hx
        · exact hsib x hx item.entry (by simp) hside.symm
        · exact hside.symm
        · simp at hx

end Context

theorem Tree.height_le (t : Tree P E S) : t.height ≤ t.ptrs.length := by
  induction t with
  | nil => simp [height]
  | node item left right ihl ihr =>
      simp only [height, ptrs_node, List.length_append, List.length_cons]
      omega

theorem Tree.height_fork (side : IsRightChild) (item : Item P E S) (near far : Tree P E S) :
    (fork side item near far).height = max near.height far.height + 1 := by
  cases side
  · rfl
  · simp only [fork, height]
    omega

/-- The filling is as deep down as its place. -/
theorem Context.depth_add_height_le (c : Context P E S) (t : Tree P E S) :
    c.depth + t.height ≤ (c.fill t).height := by
  induction c generalizing t with
  | top => simp [depth]
  | frame side item sibling up ih =>
      have hup := ih (Tree.fork side item t sibling)
      rw [Tree.height_fork] at hup
      simp only [depth, fill_frame]
      omega

theorem Context.height_fill_mono (c : Context P E S) {t t' : Tree P E S}
    (hle : t.height ≤ t'.height) : (c.fill t).height ≤ (c.fill t').height := by
  induction c generalizing t t' with
  | top => exact hle
  | frame side item sibling up ih =>
      apply ih
      rw [Tree.height_fork, Tree.height_fork]
      omega

/-- A path has at least its black nodes. -/
theorem Tree.RedBlack.le_height {t : Tree P E S} {h : ℕ} (ht : t.RedBlack h) : h ≤ t.height := by
  induction t generalizing h with
  | nil => exact Nat.le_of_eq ht
  | node item left right ihl _ =>
      obtain ⟨k, hl, -, -, rfl⟩ := ht
      have hle := ihl hl
      have hweight : item.color.weight ≤ 1 := by cases item.color <;> simp
      simp only [height]
      omega

/-! ## Totals -/

section Totals
variable {callback : Callback E S} [LawfulCallback callback]

instance : Std.Commutative callback.addAssignSummary := ⟨LawfulCallback.add_comm⟩
instance : Std.Associative callback.addAssignSummary := ⟨LawfulCallback.add_assoc⟩

theorem LawfulCallback.add_zero (a : S) :
    callback.addAssignSummary a callback.zeroSummary = a := by
  rw [add_comm, zero_add]

namespace Tree

theorem total_fork (side : IsRightChild) (item : Item P E S) (near far : Tree P E S) :
    (fork side item near far).total callback = callback.addAssignSummary
      (callback.addAssignSummary (near.total callback) (callback.elementToSummary item.element))
      (far.total callback) := by
  cases side
  · rfl
  · simp only [fork, total]
    ac_rfl

theorem summed_fork {side : IsRightChild} {item : Item P E S} {near far : Tree P E S} :
    (fork side item near far).Summed callback ↔
      item.summary = callback.addAssignSummary
        (callback.addAssignSummary (near.total callback) (callback.elementToSummary item.element))
        (far.total callback) ∧ near.Summed callback ∧ far.Summed callback := by
  rw [← total_fork side]
  cases side
  · rfl
  · simp only [fork, Summed]
    tauto

end Tree

theorem Context.summed_fill {c : Context P E S} {t : Tree P E S} :
    (c.fill t).Summed callback ↔ c.Summed callback (t.total callback) ∧ t.Summed callback := by
  induction c generalizing t with
  | top => simp [Context.Summed]
  | frame side item sibling up ih =>
      rw [fill_frame, ih, Tree.summed_fork, Tree.total_fork]
      simp only [Context.Summed]
      tauto

end Totals

end Interlock.RbTree
