import Interlock.Memory

/-!
# The intrusive red-black tree of `utils/rbtree.rs`

Nodes live in cells that belong to the caller, and are linked through `children`
and `parent` pointers.  The functions of this file follow the source statement
by statement.  What a function reads through a pointer it loads from the heap,
so a dangling pointer is a fault; a `loop` or `while` is a recursion on a number
of iterations, and a loop that needs more of them is a fault as well.  Operations
with loops take this number from a `limit`, which is `fuel`, above the number of
cells, unless the number itself is of interest.

`debug` tells whether debug assertions are compiled in.
-/

namespace Interlock.RbTree

open Memory

inductive Color where
  | black
  | red
  deriving DecidableEq, Repr

/-- A side of a node: `true` is the right one. -/
abbrev IsRightChild := Bool

/-- `children[false]` is the left child, `children[true]` the right one. -/
structure Node (P E S : Type) where
  children : IsRightChild → Option P
  parent : Option P
  color : Color
  summary : S
  element : E

/-- The operations on elements and summaries that the tree is generic in.
`addAssignSummary` and `subAssignSummary` return the new value of their left operand. -/
structure Callback (E S : Type) where
  zeroSummary : S
  elementToSummary : E → S
  addAssignSummary : S → S → S
  subAssignSummary : S → S → S
  /-- Compares a new element with an existing one. -/
  cmpElement : E → E → Ordering

/-- The cell that holds the root pointer, and the memory of all nodes. -/
structure TreeMem (P E S : Type) where
  tree : Option P
  heap : Heap P (Node P E S)

abbrev TreeM (P E S : Type) := EStateM Fault (TreeMem P E S)

variable {P E S : Type} [DecidableEq P]

namespace Node

/-- `Node::new` -/
def new (element : E) (summary : S) : Node P E S where
  children := fun _ => none
  parent := none
  color := .black
  summary := summary
  element := element

def setChild (node : Node P E S) (side : IsRightChild) (child : Option P) : Node P E S :=
  { node with children := Function.update node.children side child }

/-! ## Access to the memory -/

def load (p : P) : TreeM P E S (Node P E S) := do
  match (← get).heap.get p with
  | some node => pure node
  | none => throw .dangling

def store (p : P) (node : Node P E S) : TreeM P E S Unit := do
  let _ ← load p
  modify fun mem => { mem with heap := mem.heap.set p node }

def modifyNode (p : P) (f : Node P E S → Node P E S) : TreeM P E S Unit := do
  let node ← load p
  modify fun mem => { mem with heap := mem.heap.set p (f node) }

/-- Enough iterations for any loop that does not visit a node twice. -/
def fuel : TreeM P E S ℕ := do
  return (← get).heap.size + 4

/-- `if let Some(mut child) = child { child.as_mut().parent = parent }` -/
def setParent (child : Option P) (parent : Option P) : TreeM P E S Unit :=
  match child with
  | some child => modifyNode child fun node => { node with parent := parent }
  | none => pure ()

/-- A place that stores a link: a child slot of a node, or the root pointer. -/
abbrev Slot (P : Type) := Option (P × IsRightChild)

def readSlot : Slot P → TreeM P E S (Option P)
  | some (parent, side) => do return (← load parent).children side
  | none => do return (← get).tree

def writeSlot (slot : Slot P) (link : Option P) : TreeM P E S Unit :=
  match slot with
  | some (parent, side) => modifyNode parent (·.setChild side link)
  | none => modify fun mem => { mem with tree := link }

/-- The side of `parent` on which `child` hangs, read off the right child. -/
def sideOf (parent child : P) : TreeM P E S IsRightChild := do
  return (← load parent).children true == some child

/-- The slot below `parent` that holds `node`, read off the right child. -/
def positionOf (parent : Option P) (node : P) : TreeM P E S (Slot P) := do
  match parent with
  | some parent => return some (parent, ← sideOf parent node)
  | none => return none

variable (limit : TreeM P E S ℕ) (debug : Bool)

/-- `unreachable_unchecked`: a panic with debug assertions, undefined behaviour without. -/
def unreachableUnchecked {α : Type} : TreeM P E S α :=
  throw (if debug then .panic "internal error: entered unreachable code" else .undefinedBehavior)

variable (callback : Callback E S)

/-- `if let Some(child) = link { callback.add_assign_summary(sum, &child.as_ref().summary) }` -/
def addSummaryOf (link : Option P) (sum : S) : TreeM P E S S := do
  match link with
  | some child => return callback.addAssignSummary sum (← load child).summary
  | none => return sum

/-! ## Rotation -/

/-- The slot below `parent` that holds `node`, read off the left child. -/
def childCell (parent : Option P) (node : P) : TreeM P E S (Slot P) := do
  match parent with
  | some parent =>
      if (← load parent).children false = some node then return some (parent, false)
      else return some (parent, true)
  | none => return none

/-- `Node::rotate`: `dir` is `node`'s position after the rotation. -/
def rotate (node : P) (dir : IsRightChild) : TreeM P E S Unit := do
  let newRoot ← expect "post-rotation root does not exist" ((← load node).children (!dir))
  let mid := (← load newRoot).children dir
  modifyNode node (·.setChild (!dir) mid)
  modifyNode newRoot (·.setChild dir (some node))
  let parent := (← load node).parent
  modifyNode newRoot fun n => { n with parent := parent }
  modifyNode node fun n => { n with parent := some newRoot }
  setParent mid (some node)
  -- Update the subtree's parent's child pointer
  let cell ← childCell (← load newRoot).parent node
  debugAssert debug ((← readSlot cell) == some node) leftEqRight
  writeSlot cell (some newRoot)
  -- Update the summaries
  let nodeSummary := (← load node).summary
  let difference := callback.subAssignSummary nodeSummary (← load newRoot).summary
  let nodeSummaryNew ← addSummaryOf callback mid difference
  modifyNode node fun n => { n with summary := nodeSummaryNew }
  modifyNode newRoot fun n => { n with summary := nodeSummary }

/-! ## Insertion -/

/-- The first loop of `insert`: go down from `parent`, adding the new summary to every node on
the way, and link `newNode` below the last one.  Returns the final `parent`, `node_side` and
`grandparent_parent_side`. -/
def descend (newNode : P) :
    ℕ → P → Slot P → TreeM P E S (P × IsRightChild × Slot P)
  | 0, _, _ => throw .diverge
  | fuel + 1, parent, grandparentParentSide => do
    debugAssert debug (parent != newNode) leftNeRight
    let newSummary := (← load newNode).summary
    modifyNode parent fun n =>
      { n with summary := callback.addAssignSummary n.summary newSummary }
    let side := callback.cmpElement (← load newNode).element (← load parent).element != .lt
    match (← load parent).children side with
    | some child => descend newNode fuel child (some (parent, side))
    | none =>
        modifyNode parent (·.setChild side (some newNode))
        modifyNode newNode fun n => { n with parent := some parent }
        return (parent, side, grandparentParentSide)

/-- `uncle.filter(|u| u.as_ref().color == Color::Red)` -/
def filterRed (link : Option P) : TreeM P E S (Option P) := do
  match link with
  | some p => if (← load p).color = .red then return some p else return none
  | none => return none

/-- The second loop of `insert`, which restores the colour invariant. -/
def insertFixup : ℕ → P → P → IsRightChild → Slot P → TreeM P E S Unit
  | 0, _, _, _, _ => throw .diverge
  | fuel + 1, node, parent, nodeSide, grandparentParentSide => do
    debugAssert debug ((← load node).color == .red) leftEqRight
    debugAssert debug ((← load parent).children nodeSide == some node) leftEqRight
    debugAssert debug ((← load node).parent == some parent) leftEqRight
    -- Color invariant fulfilled?
    if (← load parent).color = .black then return ()
    match grandparentParentSide with
    | some (grandparent, parentSide) =>
        debugAssert debug ((← load grandparent).children parentSide == some parent) leftEqRight
        debugAssert debug ((← load parent).parent == some grandparent) leftEqRight
        debugAssert debug ((← load grandparent).color == .black) leftEqRight
        match ← filterRed ((← load grandparent).children (!parentSide)) with
        | some uncle =>
            -- Both `parent` and `uncle` are red: repaint, and go on at `grandparent`
            modifyNode parent fun n => { n with color := .black }
            modifyNode uncle fun n => { n with color := .black }
            modifyNode grandparent fun n => { n with color := .red }
            match (← load grandparent).parent with
            | some parent =>
                let nodeSide ← sideOf parent grandparent
                let slot ← positionOf (← load parent).parent parent
                insertFixup fuel grandparent parent nodeSide slot
            | none => return ()
        | none =>
            -- `uncle` is black: bring `node` to the outer side, then rotate `grandparent`
            if parentSide != nodeSide then
              rotate debug callback parent (!nodeSide)
              debugAssert debug ((← load node).parent == some grandparent) leftEqRight
              debugAssert debug ((← load node).children (!nodeSide) == some parent) leftEqRight
              debugAssert debug ((← load parent).parent == some node) leftEqRight
              rotate debug callback grandparent nodeSide
              modifyNode node fun n => { n with color := .black }
              modifyNode grandparent fun n => { n with color := .red }
            else
              rotate debug callback grandparent (!nodeSide)
              modifyNode parent fun n => { n with color := .black }
              modifyNode grandparent fun n => { n with color := .red }
    | none => modifyNode parent fun n => { n with color := .black }

/-- `Node::insert`, with a limit on its loops. -/
def insertWith (newNode : P) : TreeM P E S Unit := do
  modifyNode newNode fun n => { n with color := .red, children := fun _ => none }
  match (← get).tree with
  | some root =>
      let (parent, nodeSide, grandparentParentSide) ←
        descend debug callback newNode (← limit) root none
      insertFixup debug callback (← limit) newNode parent nodeSide grandparentParentSide
  | none =>
      modify fun mem => { mem with tree := some newNode }
      modifyNode newNode fun n => { n with parent := none }

/-- `Node::insert` -/
def insert (newNode : P) : TreeM P E S Unit := insertWith fuel debug callback newNode

/-! ## Removal -/

/-- Take `localSummary` out of the summaries of a node and its ancestors. -/
def excludeSummary (localSummary : S) : ℕ → Option P → TreeM P E S Unit
  | _, none => pure ()
  | 0, some _ => throw .diverge
  | fuel + 1, some n => do
    modifyNode n fun node =>
      { node with summary := callback.subAssignSummary node.summary localSummary }
    excludeSummary localSummary fuel (← load n).parent

/-- Go right from `pred` as far as possible. -/
def findPred : ℕ → P → P → IsRightChild → TreeM P E S (P × P × IsRightChild)
  | 0, _, _, _ => throw .diverge
  | fuel + 1, pred, predParent, predSide => do
    match (← load pred).children true with
    | some nextPred => findPred fuel nextPred pred true
    | none => return (pred, predParent, predSide)

/-- Take `localSummary` out of the summaries of the nodes strictly between `mid` and `node`. -/
def deductBetween (localSummary : S) (node : P) : ℕ → P → TreeM P E S Unit
  | 0, _ => throw .diverge
  | fuel + 1, mid => do
    match (← load mid).parent with
    | some midParent =>
        if midParent = node then return ()
        modifyNode midParent fun n =>
          { n with summary := callback.subAssignSummary n.summary localSummary }
        deductBetween localSummary node fuel midParent
    | none => return ()

/-- Swap what `node` and `pred` store.  When `pred` is the left child of `node`, the two cells that
link them to one another need other values than in the general case. -/
def exchangeLinks (node pred child predParent : P) (predSide : IsRightChild) :
    TreeM P E S Unit := do
  let n ← load node
  let p ← load pred
  modifyNode node fun x => { x with color := p.color, summary := p.summary }
  modifyNode pred fun x => { x with color := n.color, summary := n.summary }
  if predParent ≠ node then
    debugAssert debug predSide leftEqRight
    modifyNode node fun x => { x with children := p.children, parent := p.parent }
    modifyNode pred fun x => { x with children := n.children, parent := n.parent }
    modifyNode predParent (·.setChild true (some node))
    setParent ((← load pred).children false) (some pred)
  else
    debugAssert debug (!predSide) leftEqRight
    debugAssert debug (pred == child) leftEqRight
    modifyNode node (·.setChild true (p.children true))
    modifyNode pred (·.setChild true (n.children true))
    modifyNode node (·.setChild false (p.children false))
    modifyNode pred (·.setChild false (some node))
    modifyNode pred fun x => { x with parent := n.parent }
    modifyNode node fun x => { x with parent := some pred }

/-- Exchange `node`, whose left child is `child`, with its in-order predecessor. -/
def exchangeWith (node child : P) (parent : Option P) : TreeM P E S Unit := do
  let (pred, predParent, predSide) ← findPred (← limit) child node false
  let localSummary := callback.elementToSummary (← load pred).element
  deductBetween callback localSummary node (← limit) pred
  debugAssert debug (node != pred) leftNeRight
  exchangeLinks debug node pred child predParent predSide
  setParent ((← load pred).children true) (some pred)
  setParent ((← load node).children false) (some node)
  let predPosition ← positionOf parent node
  debugAssert debug ((← readSlot predPosition) == some node) leftEqRight
  writeSlot predPosition (some pred)

def exchangeWithPred (node child : P) (parent : Option P) : TreeM P E S Unit :=
  exchangeWith fuel debug callback node child parent

/-- A link together with the colour of the node it leads to. -/
def withColor (link : Option P) : TreeM P E S (Option (P × Color)) := do
  match link with
  | some p => return some (p, (← load p).color)
  | none => return none

/-- The loop at the end of `remove`: the black height on `parent`'s side `nodeSide` is one less
than on the other side. -/
def rebalance : ℕ → P → IsRightChild → TreeM P E S Unit
  | 0, _, _ => throw .diverge
  | fuel + 1, parent, nodeSide => do
    let sibling ← expect "called `Option::unwrap()` on a `None` value"
      ((← load parent).children (!nodeSide))
    let closeNephew ← withColor ((← load sibling).children nodeSide)
    let distantNephew ← withColor ((← load sibling).children (!nodeSide))
    match (← load parent).color, closeNephew, (← load sibling).color, distantNephew with
    -- At least one black node on `sibling`'s side by the black height invariant
    | _, none, .red, _ => unreachableUnchecked debug
    | _, _, .red, none => unreachableUnchecked debug
    -- Excluded by the color invariant
    | _, some (_, .red), .red, _ => unreachableUnchecked debug
    | _, _, .red, some (_, .red) => unreachableUnchecked debug
    | .red, _, .red, _ => unreachableUnchecked debug
    -- Valid cases; a red nephew is looked for first, so that in the last two both are black
    | .black, some (_, .black), .red, some (_, .black) =>
        rotate debug callback parent nodeSide
        modifyNode parent fun n => { n with color := .red }
        modifyNode sibling fun n => { n with color := .black }
        rebalance fuel parent nodeSide
    | _, _, .black, some (distantNephew, .red) =>
        rotate debug callback parent nodeSide
        let siblingColor := (← load sibling).color
        let parentColor := (← load parent).color
        modifyNode sibling fun n => { n with color := parentColor }
        modifyNode parent fun n => { n with color := siblingColor }
        modifyNode distantNephew fun n => { n with color := .black }
    | _, some (closeNephew, .red), .black, _ =>
        rotate debug callback sibling (!nodeSide)
        modifyNode sibling fun n => { n with color := .red }
        modifyNode closeNephew fun n => { n with color := .black }
        rebalance fuel parent nodeSide
    | .black, _, .black, _ =>
        -- Both sides are now one short: go on at `parent`'s parent
        modifyNode sibling fun n => { n with color := .red }
        match (← load parent).parent with
        | some grandparent =>
            let side ← sideOf grandparent parent
            debugAssert debug ((← load grandparent).children side == some parent) leftEqRight
            rebalance fuel grandparent side
        | none => return ()
    | .red, _, .black, _ =>
        modifyNode parent fun n => { n with color := .black }
        modifyNode sibling fun n => { n with color := .red }

/-- The part of `remove` after the exchange: `node` has no right child. -/
def unlinkWith (node : P) : TreeM P E S Unit := do
  debugAssert debug ((← load node).children true).isNone leftEqRight
  let nodePosition ← positionOf (← load node).parent node
  debugAssert debug ((← readSlot nodePosition) == some node) leftEqRight
  match (← load node).color, (← load node).children false with
  | .red, child =>
      debugAssert debug child.isNone leftEqRight
      writeSlot nodePosition none
  | .black, some child =>
      debugAssert debug ((← load child).color == .red) leftEqRight
      let parent := (← load node).parent
      modifyNode child fun n => { n with parent := parent, color := .black }
      writeSlot nodePosition (some child)
  | .black, none =>
      writeSlot nodePosition none
      match nodePosition with
      | some (parent, nodeSide) => rebalance debug callback (← limit) parent nodeSide
      | none => return ()

/-- `Node::remove`, with a limit on its loops. -/
def removeWith (node : P) : TreeM P E S Unit := do
  let localSummary := callback.elementToSummary (← load node).element
  excludeSummary callback localSummary (← limit) (some node)
  let n ← load node
  match n.parent, n.children false, n.children true with
  | none, none, none =>
      debugAssert debug ((← get).tree == some node) leftEqRight
      modify fun mem => { mem with tree := none }
  | parent, some child, some _ =>
      exchangeWith limit debug callback node child parent
      unlinkWith limit debug callback node
  | _, _, none => unlinkWith limit debug callback node
  | _, none, some _ =>
      modifyNode node fun x => { x with children := fun side => x.children (!side) }
      unlinkWith limit debug callback node

/-- `Node::remove` -/
def remove (node : P) : TreeM P E S Unit := removeWith fuel debug callback node

/-! ## Queries -/

/-- `Node::min` and `Node::max`: follow the children on one side as far as possible. -/
def extremum (side : IsRightChild) : ℕ → P → TreeM P E S P
  | 0, _ => throw .diverge
  | fuel + 1, this => do
    match (← load this).children side with
    | some child => extremum side fuel child
    | none => return this

def min (this : P) : TreeM P E S P := do extremum false (← fuel) this

def max (this : P) : TreeM P E S P := do extremum true (← fuel) this

/-- Climb from `node` to the first ancestor that has it below its child on `side`. -/
def climb (side : IsRightChild) : ℕ → P → TreeM P E S (Option P)
  | 0, _ => throw .diverge
  | fuel + 1, node => do
    match (← load node).parent with
    | some parent =>
        if (← load parent).children side = some node then return some parent
        else climb side fuel parent
    | none => return none

/-- What `predecessor` (for `true`) and `successor` (for `false`) have in common: go down on the
side away from `side`, or up. -/
def neighborWith (side : IsRightChild) (this : P) : TreeM P E S (Option P) := do
  match (← load this).children (!side) with
  | some child => return some (← extremum side (← limit) child)
  | none => climb side (← limit) this

/-- `Node::predecessor` -/
def predecessor (this : P) : TreeM P E S (Option P) := neighborWith fuel true this

/-- `Node::successor` -/
def successor (this : P) : TreeM P E S (Option P) := neighborWith fuel false this

/-- The loop of `lower_bound`. -/
def lowerBoundFromWith (cmp : E → Ordering) : ℕ → P → TreeM P E S (Option P)
  | 0, _ => throw .diverge
  | fuel + 1, node => do
    match cmp (← load node).element with
    | .lt | .eq =>
        match (← load node).children false with
        | some child => lowerBoundFromWith cmp fuel child
        | none => return some node
    | .gt =>
        match (← load node).children true with
        | some child => lowerBoundFromWith cmp fuel child
        | none => neighborWith limit false node

/-- `Node::lower_bound`, with a limit on its loops. -/
def lowerBoundWith (cmp : E → Ordering) : TreeM P E S (Option P) := do
  match (← get).tree with
  | some node => lowerBoundFromWith limit cmp (← limit) node
  | none => return none

/-- `Node::lower_bound` -/
def lowerBound (cmp : E → Ordering) : TreeM P E S (Option P) := lowerBoundWith fuel cmp

/-- The loop of `prefix_sum`: what the ancestors of `node` and their left subtrees contribute. -/
def prefixSumFrom : ℕ → P → S → TreeM P E S S
  | 0, _, _ => throw .diverge
  | fuel + 1, node, summary => do
    match (← load node).parent with
    | some parent =>
        if (← load parent).children true = some node then
          let summary ← addSummaryOf callback ((← load parent).children false) summary
          let localSummary := callback.elementToSummary (← load parent).element
          prefixSumFrom fuel parent (callback.addAssignSummary summary localSummary)
        else prefixSumFrom fuel parent summary
    | none => return summary

/-- `Node::prefix_sum`, with a limit on its loop. -/
def prefixSumWith (node : Option P) : TreeM P E S S := do
  match node with
  | some node =>
      let summary ← match (← load node).children false with
        | some child => do pure (← load child).summary
        | none => pure callback.zeroSummary
      prefixSumFrom callback (← limit) node summary
  | none =>
      match (← get).tree with
      | some root => return (← load root).summary
      | none => return callback.zeroSummary

/-- `Node::prefix_sum` -/
def prefixSum (node : Option P) : TreeM P E S S := prefixSumWith fuel callback node

end Node

end Interlock.RbTree
