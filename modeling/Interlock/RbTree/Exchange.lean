import Interlock.RbTree.Limit

/-!
# The predecessor exchange of `remove`

The in-order predecessor of a node with a left child `L` ends the right spine of `L`.  A spine is
the list of the nodes passed on the way down, each with its left subtree.  `exchangeWithPred` swaps
the two nodes and takes the predecessor's contribution out of the summaries on the spine, so that
they are right once the node has left.
-/

namespace Interlock.RbTree

open Memory Node Interlock.RbTree.Tree

variable {P E S : Type}

/-- The nodes on a path to the right, from the top, with their left subtrees. -/
abbrev Spine (P E S : Type) := List (Item P E S × Tree P E S)

def Item.mapSummary (f : S → S) (i : Item P E S) : Item P E S :=
  { i with summary := f i.summary }

namespace Spine

/-- The tree that consists of a spine and what hangs at its end. -/
def fill (t : Tree P E S) : Spine P E S → Tree P E S
  | [] => t
  | (j, left) :: path => node j left (fill t path)

/-- The root of the filled spine, given that of the filling. -/
def rootFor (hole : Option P) : Spine P E S → Option P
  | [] => hole
  | (j, _) :: _ => some j.ptr

/-- The parent of the hole, if the whole spine hangs below `parent`. -/
def lastPtr (parent : P) : Spine P E S → P
  | [] => parent
  | (j, _) :: path => lastPtr j.ptr path

/-- The cells of the spine, without its filling. -/
def cells (parent : P) (hole : Option P) : Spine P E S → List (P × Node P E S)
  | [] => []
  | (j, left) :: path =>
      (j.ptr, j.toNode (some parent) (sides true (rootFor hole path) left.root)) ::
        (left.cells (some j.ptr) ++ cells j.ptr hole path)

/-- The in-order sequence of the spine, all of it before the hole. -/
def seq : Spine P E S → List (P × E)
  | [] => []
  | (j, left) :: path => left.seq ++ j.entry :: seq path

def ptrs (path : Spine P E S) : List P := path.seq.map Prod.fst

def mapSummary (f : S → S) : Spine P E S → Spine P E S
  | [] => []
  | (j, left) :: path => (j.mapSummary f, left) :: mapSummary f path

theorem root_fill (t : Tree P E S) (path : Spine P E S) :
    (path.fill t).root = path.rootFor t.root := by
  cases path <;> rfl

@[simp] theorem ptrs_nil : ptrs ([] : Spine P E S) = [] := rfl

@[simp] theorem mem_ptrs_cons {j : Item P E S × Tree P E S} {path : Spine P E S} {p : P} :
    p ∈ ptrs (j :: path) ↔ p = j.1.ptr ∨ p ∈ j.2.ptrs ∨ p ∈ path.ptrs := by
  simp only [ptrs, seq, List.map_append, List.map_cons, List.mem_append, List.mem_cons, Tree.ptrs,
    Item.entry_fst]
  tauto

theorem length_le (path : Spine P E S) : path.length ≤ path.ptrs.length := by
  induction path with
  | nil => simp
  | cons j path ih =>
      simp only [ptrs, seq, List.length_map, List.length_append, List.length_cons] at ih ⊢
      omega

theorem nodup_ptrs_cons {j : Item P E S × Tree P E S} {path : Spine P E S} :
    (ptrs (j :: path)).Nodup ↔ j.1.ptr ∉ j.2.ptrs ∧ j.1.ptr ∉ path.ptrs ∧ j.2.ptrs.Nodup ∧
      path.ptrs.Nodup ∧ j.2.ptrs.Disjoint path.ptrs := by
  have hperm : (ptrs (j :: path)).Perm (j.1.ptr :: (j.2.ptrs ++ path.ptrs)) := by
    simp only [ptrs, seq, List.map_append, List.map_cons, Item.entry_fst]
    exact List.perm_middle
  rw [hperm.nodup_iff, List.nodup_cons, List.nodup_append', List.mem_append, not_or, and_assoc]

theorem seq_fill (t : Tree P E S) (path : Spine P E S) :
    (path.fill t).seq = path.seq ++ t.seq := by
  induction path with
  | nil => rfl
  | cons node path ih => simp [fill, seq, ih]

theorem ptrs_fill (t : Tree P E S) (path : Spine P E S) :
    (path.fill t).ptrs = path.ptrs ++ t.ptrs := by
  simp [Tree.ptrs, ptrs, seq_fill]

theorem length_add_height_le (t : Tree P E S) (path : Spine P E S) :
    path.length + t.height ≤ (path.fill t).height := by
  induction path with
  | nil => simp [fill]
  | cons j path ih =>
      simp only [fill, height, List.length_cons]
      omega

/-- The place at the end of a spine. -/
def context (c : Context P E S) : Spine P E S → Context P E S
  | [] => c
  | (j, left) :: path => context (.frame true j left c) path

theorem fill_context {c : Context P E S} {path : Spine P E S} {t : Tree P E S} :
    (path.context c).fill t = c.fill (path.fill t) := by
  induction path generalizing c with
  | nil => rfl
  | cons j path ih => exact ih

theorem pre_context {c : Context P E S} {path : Spine P E S} :
    (path.context c).pre = c.pre ++ path.seq := by
  induction path generalizing c with
  | nil => simp [context, seq]
  | cons j path ih =>
      rw [context, ih]
      simp [Context.pre, seq]

theorem post_context {c : Context P E S} {path : Spine P E S} :
    (path.context c).post = c.post := by
  induction path generalizing c with
  | nil => rfl
  | cons j path ih => exact ih

section MapSummary
variable (f : S → S) (path : Spine P E S)

@[simp] theorem seq_mapSummary : (path.mapSummary f).seq = path.seq := by
  induction path with
  | nil => rfl
  | cons node path ih =>
      simp only [mapSummary, seq, ih]
      rfl

@[simp] theorem ptrs_mapSummary : (path.mapSummary f).ptrs = path.ptrs := by
  simp [ptrs]

theorem redBlack_mapSummary {t t' : Tree P E S} (hcolor : t'.color = t.color)
    (hrb : ∀ h, t.RedBlack h → t'.RedBlack h) :
    ((path.mapSummary f).fill t').color = (path.fill t).color ∧
      ∀ h, (path.fill t).RedBlack h → ((path.mapSummary f).fill t').RedBlack h := by
  induction path with
  | nil => exact ⟨hcolor, hrb⟩
  | cons node path ih =>
      refine ⟨rfl, ?_⟩
      rintro h ⟨k, hl, hr, hcolors, rfl⟩
      exact ⟨k, hl, ih.2 k hr, fun hred => ⟨(hcolors hred).1, ih.1.trans (hcolors hred).2⟩, rfl⟩

theorem height_mapSummary {t t' : Tree P E S} (hheight : t'.height = t.height) :
    ((path.mapSummary f).fill t').height = (path.fill t).height := by
  induction path with
  | nil => exact hheight
  | cons j path ih => simp only [mapSummary, fill, height, ih]

theorem total_mapSummary (callback : Callback E S) (t : Tree P E S) :
    ((path.mapSummary f).fill t).total callback = (path.fill t).total callback := by
  induction path with
  | nil => rfl
  | cons node path ih =>
      simp only [mapSummary, fill, total, ih]
      rfl

end MapSummary

theorem summed_of_fill {callback : Callback E S} {path : Spine P E S} {t : Tree P E S}
    (hsum : (path.fill t).Summed callback) : t.Summed callback := by
  induction path with
  | nil => exact hsum
  | cons node path ih => exact ih hsum.2.2

/-- When the contribution `x` leaves the end of a spine, the spine keeps right summaries. -/
theorem summed_mapSummary {callback : Callback E S} [LawfulCallback callback] {x : S}
    {path : Spine P E S} {t t' : Tree P E S}
    (htotal : t.total callback = callback.addAssignSummary (t'.total callback) x)
    (hsum : (path.fill t).Summed callback) (hsum' : t'.Summed callback) :
    (path.fill t).total callback =
        callback.addAssignSummary ((path.fill t').total callback) x ∧
      ((path.mapSummary fun s => callback.subAssignSummary s x).fill t').Summed callback := by
  induction path with
  | nil => exact ⟨htotal, hsum'⟩
  | cons node path ih =>
      obtain ⟨hnode, hleft, hright⟩ := hsum
      obtain ⟨ihtotal, ihsummed⟩ := ih hright
      have hsub : (fill t (node :: path)).total callback =
          callback.addAssignSummary ((fill t' (node :: path)).total callback) x := by
        simp only [fill, total, ihtotal]
        ac_rfl
      refine ⟨hsub, ?_, hleft, ihsummed⟩
      show callback.subAssignSummary node.1.summary x = _
      have hmap := total_mapSummary (fun s => callback.subAssignSummary s x)
        (node :: path) callback t'
      have hcancel : callback.subAssignSummary _ x = (fill t' (node :: path)).total callback :=
        LawfulCallback.add_sub_cancel _ x
      rw [← hsub] at hcancel
      rw [hnode]
      exact hcancel.trans hmap.symm

/-- Every tree but `nil` is the end of its right spine. -/
theorem exists_fill {t : Tree P E S} {p : P} (hroot : t.root = some p) :
    ∃ path pred left, t = Spine.fill (node pred left nil) path := by
  induction t generalizing p with
  | nil => simp at hroot
  | node item left right _ ihr =>
      cases hr : right.root with
      | none =>
          obtain rfl := root_eq_none.mp hr
          exact ⟨[], item, left, rfl⟩
      | some q =>
          obtain ⟨path, pred, left', rfl⟩ := ihr hr
          exact ⟨(item, left) :: path, pred, left', rfl⟩

section Memory
variable [DecidableEq P] {h : Heap P (Node P E S)} {parent : P} {path : Spine P E S}

theorem holds_fill {t : Tree P E S} : h.Holds ((path.fill t).cells (some parent)) ↔
    h.Holds (path.cells parent t.root) ∧ h.Holds (t.cells (some (path.lastPtr parent))) := by
  induction path generalizing parent with
  | nil => simp [fill, cells, lastPtr]
  | cons node path ih =>
      simp only [fill, Tree.cells, cells, Heap.holds_cons, Heap.holds_append, ih,
        lastPtr, root_fill]
      rw [show ∀ a b, sides false a b = sides true b a from fun a b => sides_swap true a b]
      tauto

omit [DecidableEq P] in
theorem mem_keys_cells {hole : Option P} {p : P} :
    p ∈ (path.cells parent hole).map Prod.fst ↔ p ∈ path.ptrs := by
  induction path generalizing parent with
  | nil => simp [cells]
  | cons node path ih =>
      simp only [cells, List.map_cons, List.map_append, List.mem_cons, List.mem_append, ih,
        Tree.mem_keys_cells, mem_ptrs_cons]

theorem holds_agree {ps : List P} {h' : Heap P (Node P E S)} {hole : Option P}
    (hagree : Heap.AgreeOff ps h h') (hold : h.Holds (path.cells parent hole))
    (hdisjoint : ∀ p ∈ ps, p ∉ path.ptrs) : h'.Holds (path.cells parent hole) :=
  hagree.holds hold fun p hp hps => hdisjoint p hps (mem_keys_cells.mp hp)

omit [DecidableEq P] in
theorem lastPtr_mem {node : Item P E S × Tree P E S} :
    lastPtr parent (node :: path) ∈ ptrs (node :: path) := by
  induction path generalizing parent node with
  | nil => simp [lastPtr]
  | cons next path ih =>
      have hmem : lastPtr node.1.ptr (next :: path) ∈ ptrs (next :: path) := ih
      exact mem_ptrs_cons.mpr (Or.inr (Or.inr hmem))

/-- The cell at the end of a spine, and what it takes to change the filling. -/
theorem set_hole {hole : Option P} (hole' : Option P) {node : Item P E S × Tree P E S}
    (hold : h.Holds (cells parent hole (node :: path))) (hnodup : (ptrs (node :: path)).Nodup) :
    ∃ n, h.get (lastPtr parent (node :: path)) = some n ∧
      (h.set (lastPtr parent (node :: path)) (n.setChild true hole')).Holds
        (cells parent hole' (node :: path)) := by
  induction path generalizing parent node with
  | nil =>
      simp only [cells, rootFor, List.append_nil, Heap.holds_cons] at hold ⊢
      obtain ⟨hleft, -⟩ := nodup_ptrs_cons.mp hnodup
      refine ⟨_, hold.1, ?_, holds_cells_set hold.2 _ hleft⟩
      simp [lastPtr, Item.toNode, Node.setChild]
  | cons next path ih =>
      obtain ⟨hleft, hpath, -, hpathnodup, hdisjoint⟩ := nodup_ptrs_cons.mp hnodup
      rw [cells] at hold ⊢
      simp only [Heap.holds_cons, Heap.holds_append] at hold ⊢
      obtain ⟨n, hget, hset⟩ := ih hold.2.2 hpathnodup
      have hlast : lastPtr node.1.ptr (next :: path) ∈ ptrs (next :: path) := lastPtr_mem
      refine ⟨n, hget, ?_, holds_cells_set hold.2.1 _ fun hmem => hdisjoint hmem hlast, hset⟩
      refine (Heap.get_set_ne _ _ fun heq => hpath ?_).trans hold.1
      rw [heq]
      exact hlast

/-- Hanging a spine below another parent. -/
theorem setParent_spec {mem : TreeMem P E S} {hole : Option P} (parent' : P)
    {node : Item P E S × Tree P E S} (hold : mem.heap.Holds (cells parent hole (node :: path)))
    (hnodup : (ptrs (node :: path)).Nodup) :
    Runs (setParent (rootFor hole (node :: path)) (some parent')) mem fun _ mem' =>
      mem'.tree = mem.tree ∧ mem'.heap.Holds (cells parent' hole (node :: path)) ∧
        Heap.AgreeOff (ptrs (node :: path)) mem.heap mem'.heap := by
  obtain ⟨hleft, hpath, -⟩ := nodup_ptrs_cons.mp hnodup
  simp only [cells, Heap.holds_cons, Heap.holds_append] at hold
  simp only [rootFor, setParent, runs_modifyNode, hold.1, Option.some.injEq, exists_eq_left',
    true_and]
  refine ⟨?_, Heap.AgreeOff.set _ (by simp) _⟩
  simp only [cells, Heap.holds_cons, Heap.holds_append, Heap.get_set_self]
  refine ⟨rfl, holds_cells_set hold.2.1 _ hleft, hold.2.2.set _ ?_⟩
  rwa [mem_keys_cells]

end Memory

section Snoc
variable {parent : P} {hole : Option P} {path : Spine P E S} {last : Item P E S × Tree P E S}

theorem lastPtr_snoc : lastPtr parent (path ++ [last]) = last.1.ptr := by
  induction path generalizing parent with
  | nil => rfl
  | cons node path ih => exact ih

theorem rootFor_snoc : rootFor hole (path ++ [last]) = rootFor (some last.1.ptr) path := by
  cases path <;> rfl

theorem cells_snoc : cells parent hole (path ++ [last]) =
    cells parent (some last.1.ptr) path ++
      (last.1.ptr, last.1.toNode (some (lastPtr parent path)) (sides true hole last.2.root)) ::
        last.2.cells (some last.1.ptr) := by
  induction path generalizing parent with
  | nil => simp [cells, lastPtr, rootFor]
  | cons node path ih =>
      simp only [List.cons_append, cells, rootFor_snoc, ih, lastPtr, List.append_assoc]

theorem mapSummary_snoc (f : S → S) :
    mapSummary f (path ++ [last]) = mapSummary f path ++ [(last.1.mapSummary f, last.2)] := by
  induction path with
  | nil => rfl
  | cons node path ih => simp only [List.cons_append, mapSummary, ih]

@[simp] theorem rootFor_mapSummary (f : S → S) :
    (mapSummary f path).rootFor hole = path.rootFor hole := by
  cases path <;> rfl

@[simp] theorem lastPtr_mapSummary (f : S → S) :
    (mapSummary f path).lastPtr parent = path.lastPtr parent := by
  induction path generalizing parent with
  | nil => rfl
  | cons node path ih => exact ih

theorem isEmpty_mapSummary (f : S → S) (path : Spine P E S) :
    List.isEmpty (mapSummary f path) = List.isEmpty path := by
  cases path <;> rfl

theorem ptrs_snoc : ptrs (path ++ [last]) = path.ptrs ++ (last.2.ptrs ++ [last.1.ptr]) := by
  induction path with
  | nil => simp [ptrs, seq, Tree.ptrs]
  | cons node path ih =>
      simp only [ptrs, List.cons_append, seq, List.map_append, List.map_cons,
        List.append_assoc] at ih ⊢
      rw [ih]

end Snoc

end Spine

variable [DecidableEq P] {debug : Bool} {callback : Callback E S}

theorem findPred_spec {mem : TreeMem P E S} {pred : Item P E S}
    {left : Tree P E S} {post : P × P × IsRightChild → TreeMem P E S → Prop} (fuel : ℕ) :
    ∀ {path : Spine P E S} {p parent : P} {side : IsRightChild}, path.length < fuel →
      (path.fill (node pred left nil)).root = some p →
      mem.heap.Holds ((path.fill (node pred left nil)).cells (some parent)) →
      (Runs (findPred fuel p parent side) mem post ↔
        post (pred.ptr, path.lastPtr parent, side || !path.isEmpty) mem) := by
  induction fuel with
  | zero => intro path _ _ _ hlength; omega
  | succ fuel ih =>
      intro path p parent side hlength hroot hold
      cases path with
      | nil =>
          obtain rfl : pred.ptr = p := by simpa [Spine.fill] using hroot
          simp only [Spine.fill, Tree.cells, Heap.holds_cons] at hold
          simp [findPred, hold.1, sides, Spine.lastPtr]
      | cons j path =>
          obtain rfl : j.1.ptr = p := by simpa [Spine.fill] using hroot
          simp only [Spine.fill, Tree.cells, Heap.holds_cons, Heap.holds_append] at hold
          obtain ⟨q, hq⟩ : ∃ q, (Spine.fill (node pred left nil) path).root = some q := by
            cases path <;> simp [Spine.fill]
          simp only [List.length_cons] at hlength
          simp only [findPred, runs_bind, runs_load, hold.1, Option.some.injEq, exists_eq_left',
            Item.toNode_children, sides, Bool.true_eq_false, if_false, hq]
          rw [ih (by omega) hq hold.2.2]
          simp [Spine.lastPtr]

theorem deductBetween_spec {localSummary : S} {i : P} {path : Spine P E S} :
    ∀ {mem : TreeMem P E S} {hole : Option P} {mid : P} {n : Node P E S} {fuel : ℕ},
      path.length < fuel → mem.heap.get mid = some n → n.parent = some (path.lastPtr i) →
      mem.heap.Holds (path.cells i hole) → i ∉ path.ptrs → path.ptrs.Nodup →
      Runs (deductBetween callback localSummary i fuel mid) mem fun _ mem' =>
        mem'.tree = mem.tree ∧
          mem'.heap.Holds ((path.mapSummary fun s =>
            callback.subAssignSummary s localSummary).cells i hole) ∧
          Heap.AgreeOff path.ptrs mem.heap mem'.heap := by
  induction path using List.reverseRecOn with
  | nil =>
      intro mem hole mid n fuel hlength hmid hparent hold _ _
      obtain ⟨fuel, rfl⟩ : ∃ m, fuel = m + 1 := ⟨fuel - 1, by simp at hlength; omega⟩
      simp only [deductBetween, runs_bind, runs_load, hmid, Option.some.injEq, exists_eq_left',
        hparent, Spine.lastPtr, if_true, runs_pure]
      exact ⟨trivial, hold, Heap.AgreeOff.refl _ _⟩
  | append_singleton path last ih =>
      intro mem hole mid n fuel hlength hmid hparent hold hi hnodup
      obtain ⟨fuel, rfl⟩ : ∃ m, fuel = m + 1 := ⟨fuel - 1, by omega⟩
      rw [Spine.ptrs_snoc] at hi hnodup ⊢
      simp only [List.nodup_append', List.mem_append, List.mem_singleton, not_or] at hi hnodup
      obtain ⟨hpath, ⟨-, -, hleft⟩, hdisjoint⟩ := hnodup
      have hlastleft : last.1.ptr ∉ last.2.ptrs := fun hmem => hleft hmem (by simp)
      have hlastpath : last.1.ptr ∉ Spine.ptrs path := fun hmem => hdisjoint hmem (by simp)
      rw [Spine.cells_snoc] at hold
      simp only [Heap.holds_append, Heap.holds_cons] at hold
      obtain ⟨hpathcells, hlast, hleftcells⟩ := hold
      rw [Spine.lastPtr_snoc] at hparent
      simp only [deductBetween, runs_bind, runs_load, hmid, Option.some.injEq, exists_eq_left',
        hparent, Ne.symm hi.2.2, if_false, runs_modifyNode, hlast]
      have hagree₁ : ∀ n, Heap.AgreeOff [last.1.ptr] mem.heap (mem.heap.set last.1.ptr n) :=
        Heap.AgreeOff.set _ (List.mem_singleton_self _)
      refine (ih ?_ (Heap.get_set_self _ _ _) rfl (Spine.holds_agree (hagree₁ _) hpathcells ?_) hi.1
        hpath).mono ?_
      · simp only [List.length_append, List.length_singleton] at hlength
        omega
      · simpa using hlastpath
      rintro _ mem' ⟨htree', hcells', hagree'⟩
      refine ⟨htree', ?_, ?_⟩
      · rw [Spine.mapSummary_snoc, Spine.cells_snoc]
        simp only [Heap.holds_append, Heap.holds_cons, Spine.lastPtr_mapSummary]
        refine ⟨hcells', ?_, ?_⟩
        · exact (hagree' _ hlastpath).trans (Heap.get_set_self _ _ _)
        · refine holds_cells_agree hagree' (holds_cells_set hleftcells _ hlastleft) ?_
          exact fun p hp hmem => hdisjoint hp (by simp [hmem])
      · refine ((hagree₁ _).mono ?_).trans (hagree'.mono ?_)
        · simp
        · exact fun p hp => List.mem_append_left _ hp

/-! ## The exchange -/

/-- The state of the memory when both nodes have their new links, but their neighbours outside the
spine still point to the old places. -/
structure Exchanged (mem : TreeMem P E S) (c : Context P E S) (i pred : Item P E S)
    (path : Spine P E S) (left right : Tree P E S) : Prop where
  tree_eq : mem.tree = c.rootFor (some i.ptr)
  context : mem.heap.Holds (c.cells (some i.ptr))
  get_pred : mem.heap.get pred.ptr =
    some (pred.toNode c.ptr (sides false (path.rootFor (some i.ptr)) right.root))
  get_node : mem.heap.get i.ptr =
    some (i.toNode (some (path.lastPtr pred.ptr)) (sides false left.root none))
  spine : mem.heap.Holds (path.cells pred.ptr (some i.ptr))
  left : mem.heap.Holds (left.cells (some pred.ptr))
  right : mem.heap.Holds (right.cells (some i.ptr))

theorem exchanged_spec {mem : TreeMem P E S} {c : Context P E S} {i pred : Item P E S}
    {path : Spine P E S} {left right : Tree P E S}
    (h : Exchanged mem c i pred path left right)
    (hnodup : (c.fill (node pred (path.fill (node i left nil)) right)).ptrs.Nodup) :
    Runs (do
      setParent ((← load pred.ptr).children true) (some pred.ptr)
      setParent ((← load i.ptr).children false) (some i.ptr)
      let predPosition ← positionOf c.ptr i.ptr
      debugAssert debug ((← readSlot predPosition) == some i.ptr) leftEqRight
      writeSlot predPosition (some pred.ptr)) mem fun _ mem' =>
        Represents mem' c (node pred (path.fill (node i left nil)) right) ∧
          Heap.AgreeOff (c.fill (node pred (path.fill (node i left nil)) right)).ptrs mem.heap
            mem'.heap := by
  obtain ⟨htree, hc, hpred, hi, hpath, hleft, hright⟩ := h
  obtain ⟨hcn, hfn, hcf⟩ := Context.nodup_fill.mp hnodup
  obtain ⟨hpredspine, hpredright, hspinen, hrightn, hspineright⟩ := nodup_fork (d := false).mp hfn
  simp only [Spine.ptrs_fill, List.mem_append, not_or] at hpredspine hspinen
  obtain ⟨hpathn, hilast, hpathlast⟩ := List.nodup_append'.mp hspinen
  obtain ⟨hileft, -, hleftn, -⟩ := nodup_fork (d := false).mp hilast
  have hipred : pred.ptr ≠ i.ptr := fun heq => hpredspine.2 (by simp [heq])
  have hpredleft : pred.ptr ∉ left.ptrs := fun hmem => hpredspine.2 (by simp [hmem])
  have hiright : i.ptr ∉ right.ptrs := fun hmem =>
    hspineright (by simp [Spine.ptrs_fill]) hmem
  have hleftpath : ∀ p ∈ left.root.toList, p ∉ path.ptrs := fun p hp hmem =>
    hpathlast hmem (by simp [left.root_subset_ptrs p hp])
  have hrightpath : ∀ p ∈ right.root.toList, p ∉ path.ptrs := fun p hp hmem =>
    hspineright (by simp [Spine.ptrs_fill, hmem]) (right.root_subset_ptrs p hp)
  have hrightleft : ∀ p ∈ right.root.toList, p ∉ left.ptrs := fun p hp hmem =>
    hspineright (by simp [Spine.ptrs_fill, hmem]) (right.root_subset_ptrs p hp)
  have hleftright : ∀ p ∈ left.root.toList, p ∉ right.ptrs := fun p hp hmem =>
    hspineright (by simp [Spine.ptrs_fill, left.root_subset_ptrs p hp]) hmem
  have hcnode : ∀ p, p ∈ (node pred (path.fill (node i left nil)) right).ptrs ↔
      p = pred.ptr ∨ p ∈ path.ptrs ∨ p = i.ptr ∨ p ∈ left.ptrs ∨ p ∈ right.ptrs := by
    intro p
    simp only [ptrs_node, Spine.ptrs_fill, ptrs_nil, List.mem_append, List.mem_cons,
      List.not_mem_nil]
    tauto
  have hcdisjoint : ∀ p ∈ c.ptrs, p ≠ pred.ptr ∧ p ∉ path.ptrs ∧ p ≠ i.ptr ∧ p ∉ left.ptrs ∧
      p ∉ right.ptrs := by
    intro p hp
    have hnot := (hcnode p).not.mp fun hmem => hcf hp hmem
    simpa only [not_or] using hnot
  have hic : i.ptr ∉ c.ptrs := fun hmem => (hcdisjoint _ hmem).2.2.1 rfl
  -- The right subtree
  simp only [runs_bind, runs_load, hpred, Option.some.injEq, exists_eq_left', Item.toNode_children,
    sides_true]
  refine (setParent_spec (some pred.ptr) hright hrightn).mono ?_
  rintro _ mem₁ ⟨htree₁, hright₁, hagree₁⟩
  have hi₁ := (hagree₁ i.ptr fun hmem => hiright (right.root_subset_ptrs _ hmem)).trans hi
  have hpred₁ :=
    (hagree₁ pred.ptr fun hmem => hpredright (right.root_subset_ptrs _ hmem)).trans hpred
  have hpath₁ := Spine.holds_agree hagree₁ hpath hrightpath
  have hleft₁ := Tree.holds_cells_agree hagree₁ hleft hrightleft
  have hc₁ := Context.holds_cells_agree hagree₁ hc fun p hp hmem =>
    (hcdisjoint p hmem).2.2.2.2 (right.root_subset_ptrs p hp)
  -- The left subtree
  simp only [hi₁, Option.some.injEq, exists_eq_left', Item.toNode_children, sides_self]
  refine (setParent_spec (some i.ptr) hleft₁ hleftn).mono ?_
  rintro _ mem₂ ⟨htree₂, hleft₂, hagree₂⟩
  have hi₂ := (hagree₂ i.ptr fun hmem => hileft (left.root_subset_ptrs _ hmem)).trans hi₁
  have hpred₂ :=
    (hagree₂ pred.ptr fun hmem => hpredleft (left.root_subset_ptrs _ hmem)).trans hpred₁
  have hpath₂ := Spine.holds_agree hagree₂ hpath₁ hleftpath
  have hright₂ := Tree.holds_cells_agree hagree₂ hright₁ hleftright
  have hc₂ := Context.holds_cells_agree hagree₂ hc₁ fun p hp hmem =>
    (hcdisjoint p hmem).2.2.2.1 (left.root_subset_ptrs p hp)
  have htreeAll : mem₂.tree = c.rootFor (some i.ptr) := htree₂.trans (htree₁.trans htree)
  -- The slot above
  simp only [positionOf_spec hc₂ hic, runs_debugAssert, readSlot_spec htreeAll hc₂,
    beq_self_eq_true, implies_true, true_and]
  refine (writeSlot_spec (some pred.ptr) htreeAll hc₂ hcn).mono ?_
  rintro _ mem₃ ⟨htree₃, hc₃, hagree₃⟩
  have hup := fun p hp => hcdisjoint p (c.ptr_subset_ptrs p hp)
  refine ⟨⟨htree₃, hc₃, ?_, hnodup⟩, ?_⟩
  · refine (holds_cells_fork (d := false)).mpr ⟨?_, Spine.holds_fill.mpr ⟨?_, ?_⟩, ?_⟩
    · rw [hagree₃ _ fun hmem => (hup _ hmem).1 rfl, hpred₂, Spine.root_fill, root_node]
    · exact Spine.holds_agree hagree₃ hpath₂ fun p hp => (hup p hp).2.1
    · refine (holds_cells_fork (d := false)).mpr ⟨?_, ?_, Heap.holds_nil _⟩
      · rw [hagree₃ _ fun hmem => (hup _ hmem).2.2.1 rfl, hi₂, root_nil]
      · exact Tree.holds_cells_agree hagree₃ hleft₂ fun p hp => (hup p hp).2.2.2.1
    · exact Tree.holds_cells_agree hagree₃ hright₂ fun p hp => (hup p hp).2.2.2.2
  · have hsub : ∀ p, p ∈ (c.fill (node pred (path.fill (node i left nil)) right)).ptrs ↔
      p ∈ c.ptrs ∨
        p = pred.ptr ∨ p ∈ path.ptrs ∨ p = i.ptr ∨ p ∈ left.ptrs ∨ p ∈ right.ptrs := by
      intro p
      rw [(c.ptrs_fill_perm _).mem_iff, List.mem_append, hcnode]
    refine ((hagree₁.mono ?_).trans (hagree₂.mono ?_)).trans (hagree₃.mono ?_)
    · exact fun p hp => (hsub p).mpr (by simp [right.root_subset_ptrs p hp])
    · exact fun p hp => (hsub p).mpr (by simp [left.root_subset_ptrs p hp])
    · exact fun p hp => (hsub p).mpr (by simp [c.ptr_subset_ptrs p hp])

omit [DecidableEq P] in
/-- The cells around an exchange. -/
theorem ptrs_exchange_perm (c : Context P E S) (i pred : Item P E S) (path : Spine P E S)
    (left right : Tree P E S) : (c.fill (node i (path.fill (node pred left nil)) right)).ptrs.Perm
      (i.ptr :: pred.ptr :: (path.ptrs ++ (left.ptrs ++ (right.ptrs ++ c.ptrs)))) := by
  have hpred : (node pred left nil).ptrs.Perm (pred.ptr :: left.ptrs) := by
    simp
  have hnode : (node i (path.fill (node pred left nil)) right).ptrs.Perm
      (i.ptr :: pred.ptr :: (path.ptrs ++ (left.ptrs ++ right.ptrs))) := by
    simp only [ptrs_node i, Spine.ptrs_fill]
    refine List.perm_middle.trans (List.Perm.cons _ ?_)
    have hinner := (hpred.append_left path.ptrs).append_right right.ptrs
    refine hinner.trans ?_
    simp
  refine (c.ptrs_fill_perm _).trans (List.perm_append_comm.trans ?_)
  simpa using hnode.append_right c.ptrs

/-- The parts of the memory that an exchange deals with have no cell in common. -/
structure Apart (c : Context P E S) (i pred : P) (path : Spine P E S) (left right : Tree P E S) :
    Prop where
  ne : i ≠ pred
  node_apart : i ∉ path.ptrs ∧ i ∉ left.ptrs ∧ i ∉ right.ptrs ∧ i ∉ c.ptrs
  pred_apart : pred ∉ path.ptrs ∧ pred ∉ left.ptrs ∧ pred ∉ right.ptrs ∧ pred ∉ c.ptrs
  path_nodup : path.ptrs.Nodup
  path_apart : ∀ p ∈ path.ptrs, p ∉ left.ptrs ∧ p ∉ right.ptrs ∧ p ∉ c.ptrs

omit [DecidableEq P] in
theorem apart_of_nodup {c : Context P E S} {i pred : Item P E S} {path : Spine P E S}
    {left right : Tree P E S}
    (hnodup : (c.fill (node i (path.fill (node pred left nil)) right)).ptrs.Nodup) :
    Apart c i.ptr pred.ptr path left right := by
  rw [(ptrs_exchange_perm c i pred path left right).nodup_iff] at hnodup
  simp only [List.nodup_cons, List.mem_cons, List.mem_append, not_or, List.nodup_append'] at hnodup
  obtain ⟨⟨hne, hi⟩, hpred, hpath, -, hdisjoint⟩ := hnodup
  refine ⟨hne, hi, hpred, hpath, fun p hp => ?_⟩
  have hnot : p ∉ left.ptrs ++ (right.ptrs ++ c.ptrs) := hdisjoint hp
  simpa only [List.mem_append, not_or] using hnot

/-- The middle part of the exchange: both nodes get their new links, in either layout. -/
theorem exchangeLinks_spec {mem : TreeMem P E S} {c : Context P E S}
    {i pred : Item P E S} {path : Spine P E S} {left right : Tree P E S} {child : P}
    (hapart : Apart c i.ptr pred.ptr path left right)
    (hchild : path.rootFor (some pred.ptr) = some child)
    (htree : mem.tree = c.rootFor (some i.ptr)) (hc : mem.heap.Holds (c.cells (some i.ptr)))
    (hi : mem.heap.get i.ptr = some (i.toNode c.ptr (sides false (some child) right.root)))
    (hpred : mem.heap.get pred.ptr =
      some (pred.toNode (some (path.lastPtr i.ptr)) (sides false left.root none)))
    (hpath : mem.heap.Holds (path.cells i.ptr (some pred.ptr)))
    (hleft : mem.heap.Holds (left.cells (some pred.ptr)))
    (hright : mem.heap.Holds (right.cells (some i.ptr))) :
    Runs (exchangeLinks debug i.ptr pred.ptr child (path.lastPtr i.ptr) (!path.isEmpty)) mem
      fun _ mem' =>
      Exchanged mem' c { i with color := pred.color, summary := pred.summary }
        { pred with color := i.color, summary := i.summary } path left right ∧
        Heap.AgreeOff (i.ptr :: pred.ptr :: path.ptrs) mem.heap mem'.heap := by
  have hne := hapart.ne
  set i' : Item P E S := { i with color := pred.color, summary := pred.summary } with hi'
  set pred' : Item P E S := { pred with color := i.color, summary := i.summary } with hpred'
  obtain ⟨hipath, hileft, hiright, hic⟩ := hapart.node_apart
  obtain ⟨hppath, hpleft, hpright, hpc⟩ := hapart.pred_apart
  cases path with
  | nil =>
      obtain rfl : pred.ptr = child := by simpa [Spine.rootFor] using hchild
      simp only [exchangeLinks, Spine.lastPtr, ne_eq, not_true, if_false, runs_bind, runs_load, hi,
        hpred, runs_modifyNode, Heap.get_set, if_true, hne, Ne.symm hne, Option.some.injEq,
        exists_eq_left', runs_debugAssert]
      refine ⟨fun _ => rfl, fun _ => by simp, ?_⟩
      have hfinal : ∀ heap' : Heap P (Node P E S),
          heap'.get i.ptr = some (i'.toNode (some pred.ptr) (sides false left.root none)) →
          heap'.get pred.ptr = some (pred'.toNode c.ptr (sides false (some i.ptr) right.root)) →
          Heap.AgreeOff [i.ptr, pred.ptr] mem.heap heap' →
          Exchanged ⟨mem.tree, heap'⟩ c i' pred' [] left right ∧
            Heap.AgreeOff [i.ptr, pred.ptr] mem.heap heap' := by
        intro heap' hgeti hgetp hagree
        refine ⟨⟨htree, ?_, hgetp, hgeti, Heap.holds_nil _, ?_, ?_⟩, hagree⟩
        · exact Context.holds_cells_agree hagree hc (by simp [hic, hpc])
        · exact Tree.holds_cells_agree hagree hleft (by simp [hileft, hpleft])
        · exact Tree.holds_cells_agree hagree hright (by simp [hiright, hpright])
      refine hfinal _ ?_ ?_ ?_
      · simp [Item.toNode, hi']
        funext s
        cases s <;> simp [sides]
      · simp [Heap.get_set, Ne.symm hne, Item.toNode, hpred']
        funext s
        cases s <;> simp [sides]
      · intro q hq
        simp only [List.mem_cons, List.not_mem_nil, or_false, not_or] at hq
        simp [Heap.get_set, hq.1, hq.2]
  | cons j path =>
      have hlast : Spine.lastPtr i.ptr (j :: path) ≠ i.ptr := fun heq =>
        hipath (heq ▸ Spine.lastPtr_mem)
      have hlastmem : Spine.lastPtr i.ptr (j :: path) ∈ Spine.ptrs (j :: path) := Spine.lastPtr_mem
      have hplast : pred.ptr ≠ Spine.lastPtr i.ptr (j :: path) := fun heq => hppath (heq ▸ hlastmem)
      -- The links of the spine's ends
      have hrest : ∀ heap₂ : Heap P (Node P E S),
          heap₂.get i.ptr =
            some (i'.toNode (some (Spine.lastPtr i.ptr (j :: path))) (sides false left.root none)) →
          heap₂.get pred.ptr = some (pred'.toNode c.ptr (sides false (some child) right.root)) →
          Heap.AgreeOff [i.ptr, pred.ptr] mem.heap heap₂ →
          Runs (do
            modifyNode (Spine.lastPtr i.ptr (j :: path)) (·.setChild true (some i.ptr))
            setParent ((← load pred.ptr).children false) (some pred.ptr)) ⟨mem.tree, heap₂⟩
            fun _ mem' => Exchanged mem' c i' pred' (j :: path) left right ∧
              Heap.AgreeOff (i.ptr :: pred.ptr :: Spine.ptrs (j :: path)) mem.heap mem'.heap := by
        intro heap₂ hgeti hgetp hagree
        have hpath₂ := Spine.holds_agree hagree hpath <| by
          simp only [List.forall_mem_cons]
          exact ⟨hipath, hppath, by simp⟩
        obtain ⟨n, hn, hset⟩ := Spine.set_hole (some i.ptr) hpath₂ hapart.path_nodup
        simp only [runs_bind, runs_modifyNode, hn, Option.some.injEq, exists_eq_left', runs_load,
          Heap.get_set_ne _ _ hplast, hgetp, Item.toNode_children, sides_self]
        rw [show some child = Spine.rootFor (some i.ptr) (j :: path) from hchild.symm]
        refine (Spine.setParent_spec pred.ptr hset hapart.path_nodup).mono ?_
        rintro _ mem' ⟨htree', hspine', hagree'⟩
        have hagree₃ : Heap.AgreeOff (Spine.ptrs (j :: path)) heap₂ mem'.heap :=
          (Heap.AgreeOff.set _ hlastmem _).trans hagree'
        have hsub : Heap.AgreeOff (i.ptr :: pred.ptr :: Spine.ptrs (j :: path))
          mem.heap mem'.heap :=
          (hagree.mono (by simp)).trans (hagree₃.mono (by simp +contextual))
        refine ⟨⟨htree'.trans htree, ?_, ?_, ?_, hspine', ?_, ?_⟩, hsub⟩
        · refine Context.holds_cells_agree hsub hc ?_
          simp only [List.forall_mem_cons]
          exact ⟨hic, hpc, fun p hp => (hapart.path_apart p hp).2.2⟩
        · exact (hagree₃ _ hppath).trans (hchild ▸ hgetp)
        · exact (hagree₃ _ hipath).trans hgeti
        · refine Tree.holds_cells_agree hsub hleft ?_
          simp only [List.forall_mem_cons]
          exact ⟨hileft, hpleft, fun p hp => (hapart.path_apart p hp).1⟩
        · refine Tree.holds_cells_agree hsub hright ?_
          simp only [List.forall_mem_cons]
          exact ⟨hiright, hpright, fun p hp => (hapart.path_apart p hp).2.1⟩
      simp only [exchangeLinks, ne_eq, hlast, not_false_eq_true, if_true, runs_bind, runs_load, hi,
        hpred, Option.some.injEq, exists_eq_left', runs_debugAssert, List.isEmpty_cons,
        Bool.not_false, implies_true, true_and] at hrest ⊢
      refine runs_modifyNode.mpr ⟨_, hi, ?_⟩
      refine runs_modifyNode.mpr ⟨_, (Heap.get_set_ne _ _ hne.symm).trans hpred, ?_⟩
      refine runs_modifyNode.mpr ⟨_, (Heap.get_set_ne _ _ hne).trans (Heap.get_set_self _ _ _), ?_⟩
      refine runs_modifyNode.mpr ⟨_, (Heap.get_set_ne _ _ hne.symm).trans (Heap.get_set_self _ _ _),
        ?_⟩
      refine hrest _ ?_ ?_ ?_
      · simp [Heap.get_set, hne, Item.toNode, hi']
      · simp [Item.toNode, hpred']
      · intro q hq
        simp only [List.mem_cons, List.not_mem_nil, or_false, not_or] at hq
        simp [Heap.get_set, hq.1, hq.2]

theorem exchangeWith_spec {limit : TreeM P E S ℕ} {mem : TreeMem P E S} {c : Context P E S}
    {i pred : Item P E S} {path : Spine P E S} {left right : Tree P E S} {child : P}
    (h : Represents mem c (node i (path.fill (node pred left nil)) right))
    (hchild : (path.fill (node pred left nil)).root = some child)
    (hlimit : Allows limit (c.fill (node i (path.fill (node pred left nil)) right)).height
      (c.fill (node i (path.fill (node pred left nil)) right)).ptrs) :
    Runs (exchangeWith limit debug callback i.ptr child c.ptr) mem fun _ mem' =>
      Represents mem' c (node { pred with color := i.color, summary := i.summary }
        ((path.mapSummary fun s =>
          callback.subAssignSummary s (callback.elementToSummary pred.element)).fill
          (node { i with color := pred.color, summary := pred.summary } left nil)) right) ∧
        Heap.AgreeOff (c.fill (node i (path.fill (node pred left nil)) right)).ptrs mem.heap
          mem'.heap := by
  have hbound := hlimit mem h.live
  have hlength : path.length < (c.fill (node i (path.fill (node pred left nil)) right)).height := by
    have hdown := c.depth_add_height_le (node i (path.fill (node pred left nil)) right)
    have hpath := Spine.length_add_height_le (node pred left nil) path
    simp only [height] at hdown hpath
    omega
  obtain ⟨htree, hc, hfocus, hnodup⟩ := h
  have hapart := apart_of_nodup hnodup
  have hperm := ptrs_exchange_perm c i pred path left right
  obtain ⟨hi, hspine, hright⟩ := (holds_cells_fork (d := false)).mp hfocus
  obtain ⟨hpathcells, hpredcells⟩ := Spine.holds_fill.mp hspine
  obtain ⟨hpred, hleft, -⟩ := (holds_cells_fork (d := false)).mp hpredcells
  obtain ⟨hipath, -, -, -⟩ := hapart.node_apart
  obtain ⟨hppath, -, -, -⟩ := hapart.pred_apart
  rw [Spine.root_fill, root_node] at hchild
  unfold exchangeWith
  refine hbound.bind ?_
  rintro bound _ ⟨hle, rfl⟩
  rw [runs_bind, findPred_spec _ (hlength.trans_le hle) (by rwa [Spine.root_fill]) hspine]
  refine runs_bind.mpr (runs_load.mpr ⟨_, hpred, ?_⟩)
  rw [Bool.false_or]
  refine hbound.bind ?_
  rintro bound _ ⟨hle, rfl⟩
  refine (deductBetween_spec (hlength.trans_le hle) hpred rfl hpathcells hipath
    hapart.path_nodup).bind ?_
  rintro _ mem₁ ⟨htree₁, hpath₁, hagree₁⟩
  refine runs_bind.mpr (runs_debugAssert.mpr ⟨fun _ => by simpa using hapart.ne, ?_⟩)
  set f : S → S := fun s => callback.subAssignSummary s (callback.elementToSummary pred.element)
    with hf
  have hapart' : Apart c i.ptr pred.ptr (path.mapSummary f) left right := by
    obtain ⟨hne, hnode, hpred', hpathn, hdisjoint⟩ := hapart
    refine ⟨hne, ?_, ?_, ?_, ?_⟩ <;> rwa [Spine.ptrs_mapSummary]
  have hpath : ∀ p ∈ path.ptrs, p ∉ left.ptrs ∧ p ∉ right.ptrs ∧ p ∉ c.ptrs := hapart.path_apart
  have hi₁ := (hagree₁ _ hipath).trans hi
  have hpred₁ := (hagree₁ _ hppath).trans hpred
  rw [Spine.root_fill, root_node, hchild] at hi₁
  rw [← Spine.lastPtr_mapSummary f] at hpred₁
  have hlinks := @exchangeLinks_spec P E S _ debug mem₁ c i pred (path.mapSummary f) left right
    child hapart' (by rwa [Spine.rootFor_mapSummary]) (htree₁.trans htree)
    (Context.holds_cells_agree hagree₁ hc fun p hp => (hpath p hp).2.2) hi₁ hpred₁ hpath₁
    (Tree.holds_cells_agree hagree₁ hleft fun p hp => (hpath p hp).1)
    (Tree.holds_cells_agree hagree₁ hright fun p hp => (hpath p hp).2.1)
  rw [Spine.lastPtr_mapSummary, Spine.isEmpty_mapSummary] at hlinks
  refine hlinks.bind ?_
  rintro _ mem₂ ⟨hexchanged, hagree₂⟩
  set i' : Item P E S := { i with color := pred.color, summary := pred.summary } with hi'
  set pred' : Item P E S := { pred with color := i.color, summary := i.summary } with hpred'
  have hperm' : (c.fill (node pred' ((path.mapSummary f).fill (node i' left nil)) right)).ptrs.Perm
      (c.fill (node i (path.fill (node pred left nil)) right)).ptrs := by
    refine (ptrs_exchange_perm c pred' i' _ left right).trans ?_
    rw [Spine.ptrs_mapSummary]
    exact (List.Perm.swap _ _ _).trans hperm.symm
  have htail := @exchanged_spec P E S _ debug mem₂ c i' pred' _ left right hexchanged
    (hperm'.nodup_iff.mpr hnodup)
  refine htail.mono ?_
  rintro _ mem' ⟨hrep', hagree'⟩
  refine ⟨hrep', ((hagree₁.mono ?_).trans (hagree₂.mono ?_)).trans (hagree'.mono ?_)⟩
  · exact fun p hp => hperm.mem_iff.mpr (by simp [hp])
  · intro p hp
    rw [Spine.ptrs_mapSummary] at hp
    refine hperm.mem_iff.mpr ?_
    simp only [List.mem_cons, List.mem_append] at hp ⊢
    tauto
  · exact fun p hp => hperm'.mem_iff.mp hp

theorem exchangeWithPred_spec {mem : TreeMem P E S} {c : Context P E S}
    {i pred : Item P E S} {path : Spine P E S} {left right : Tree P E S} {child : P}
    (h : Represents mem c (node i (path.fill (node pred left nil)) right))
    (hchild : (path.fill (node pred left nil)).root = some child) :
    Runs (exchangeWithPred debug callback i.ptr child c.ptr) mem fun _ mem' =>
      Represents mem' c (node { pred with color := i.color, summary := i.summary }
        ((path.mapSummary fun s =>
          callback.subAssignSummary s (callback.elementToSummary pred.element)).fill
          (node { i with color := pred.color, summary := pred.summary } left nil)) right) ∧
        Heap.AgreeOff (c.fill (node i (path.fill (node pred left nil)) right)).ptrs mem.heap
          mem'.heap := by
  unfold Node.exchangeWithPred
  exact exchangeWith_spec h hchild h.allows_fuel

end Interlock.RbTree
