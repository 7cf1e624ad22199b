import Interlock.RbTree.Exchange
import Interlock.RbTree.Rebalance

/-!
# Removal

A node with two children first changes places with its in-order predecessor, so that `unlinkWith`
only ever takes out a node with at most one child.

The node is the focus of a context, and the proof follows the four parts of the code.
`excludeSummary` takes the element out of the summaries on the path to the root (`mapSummary`),
which are right from then on for a tree without the node.  If there are two children,
`exchangeWithPred` puts the predecessor in the place of the node, and the node at the end of the
spine.  `unlinkWith` hangs the only child in the place of the node.  If the node was red, this is
the end, as the child is missing, too.  If it was black, either the child is red and is painted
black, or the place is one black node short, and `rebalance` has to pay for it.  None of these steps
changes the in-order sequence, except that the node has left it.
-/

namespace Interlock.RbTree

open Memory Node Interlock.RbTree.Tree

variable {P E S : Type} [DecidableEq P] {debug : Bool} {callback : Callback E S}

/-! ## Taking out a node with at most one child -/

/-- Emptying the slot of the focus, or hanging a subtree of it there. -/
theorem writeSlot_represents {mem : TreeMem P E S} {c : Context P E S} {hole : Option P}
    (a : Tree P E S) (htree : mem.tree = c.rootFor hole) (hc : mem.heap.Holds (c.cells hole))
    (ha : mem.heap.Holds (a.cells c.ptr)) (hnodup : (c.fill a).ptrs.Nodup) :
    Runs (writeSlot c.slot a.root) mem fun _ mem' => Represents mem' c a ∧
      Heap.AgreeOff (c.fill a).ptrs mem.heap mem'.heap := by
  obtain ⟨hcn, -, hca⟩ := Context.nodup_fill.mp hnodup
  refine (writeSlot_spec a.root htree hc hcn).mono ?_
  rintro _ mem' ⟨htree', hc', hagree⟩
  refine ⟨⟨htree', hc', ?_, hnodup⟩, hagree.mono fun p hp => ?_⟩
  · exact holds_cells_agree hagree ha fun p hp => hca (c.ptr_subset_ptrs p hp)
  · rw [(c.ptrs_fill_perm _).mem_iff]
    exact List.mem_append_left _ (c.ptr_subset_ptrs p hp)

theorem unlink_linked {sums : Prop} (hlaw : sums → LawfulCallback callback)
    {limit : TreeM P E S ℕ} {mem : TreeMem P E S} {c : Context P E S}
    {i : Item P E S} {a : Tree P E S} {h : ℕ} (hrep : Represents mem c (node i a nil))
    (hc : c.RedBlack h) (ht : (node i a nil).RedBlack h)
    (hcolor : i.color = .red → c.color = .black)
    (hsum : sums → (c.fill a).Summed callback)
    (hlimit : Allows limit (c.fill a).height (c.fill (node i a nil)).ptrs) :
    Runs (unlinkWith limit debug callback i.ptr) mem fun _ mem' =>
      Linked sums callback mem' (c.pre ++ a.seq ++ c.post) ∧
        Heap.AgreeOff (c.fill a).ptrs mem.heap mem'.heap := by
  obtain ⟨htree, hcells, hfocus, hnodup⟩ := hrep
  obtain ⟨hcn, hfn, hcf⟩ := Context.nodup_fill.mp hnodup
  obtain ⟨hia, -, han, -, -⟩ := nodup_fork (d := false).mp hfn
  have hic : i.ptr ∉ c.ptrs := fun hmem => hcf hmem (by simp)
  have hnodup' : (c.fill a).ptrs.Nodup :=
    Context.nodup_fill.mpr ⟨hcn, han, fun p hpc hpa => hcf hpc (by simp [hpa])⟩
  obtain ⟨hi, ha, -⟩ := holds_cells_fork (d := false).mp hfocus
  obtain ⟨k, hak, hnil, hcolors, rfl⟩ := ht
  obtain rfl : k = 0 := hnil
  simp only [root_node] at hcells htree
  simp only [unlinkWith, runs_bind, runs_debugAssert, runs_load, hi, Option.some.injEq,
    exists_eq_left', Item.toNode_children, Item.toNode_parent, Item.toNode_color,
    positionOf_spec hcells hic, readSlot_spec htree hcells, beq_self_eq_true, implies_true,
    true_and]
  refine ⟨fun _ => by simp [sides], ?_⟩
  rw [sides_self]
  by_cases hblack : i.color = .black
  case neg =>
    -- A red node has no child
    have hred := color_eq_red hblack
    rw [hred, Color.weight_red] at hc
    obtain rfl : a = nil := hak.eq_nil (hcolors hred).1
    simp only [hred, root_nil, Option.isNone_none, runs_bind, runs_debugAssert, implies_true,
      true_and]
    refine (writeSlot_represents nil htree hcells (Heap.holds_nil _) hnodup').mono ?_
    rintro _ mem' ⟨hrep', hagree⟩
    obtain ⟨k, hk⟩ := Context.redBlack_fill (t := nil) hc hak fun hne => by simp at hne
    exact ⟨⟨c.fill nil, k, represents_fill.mp hrep', hk, hsum, by rw [c.seq_fill]⟩, hagree⟩
  rw [hblack, Color.weight_black] at hc
  cases a with
  | nil =>
      simp only [hblack, root_nil, runs_bind]
      refine (writeSlot_represents nil htree hcells (Heap.holds_nil _) hnodup').mono ?_
      rintro _ mem' ⟨hrep', hagree⟩
      have harr : Arranged sums callback (c.fill nil).ptrs mem.heap (c.fill nil).seq mem' c nil :=
        ⟨hrep', rfl, hsum, fun _ hp => hp, hagree⟩
      rw [← c.seq_fill]
      cases c with
      | top =>
          simp only [Context.slot_top, runs_pure]
          exact ⟨harr.linked (k := 0) trivial rfl fun _ => rfl, hagree⟩
      | frame side p sibling up =>
          simp only [Context.slot_frame, runs_bind]
          have hlive : ∀ q ∈ ((Context.frame side p sibling up).fill (node i nil nil)).ptrs,
              (mem'.heap.get q).isSome := by
            intro q hq
            rw [(Context.ptrs_fill_perm _ _).mem_iff, List.mem_append] at hq
            rcases hq with hq | hq
            · exact hrep'.live q
                ((Context.ptrs_fill_perm _ _).mem_iff.mpr (List.mem_append_left _ hq))
            · obtain rfl : q = i.ptr := by simpa using hq
              rw [hagree _ fun hmem => ?_, hi]
              · rfl
              · rw [(Context.ptrs_fill_perm _ _).mem_iff, List.mem_append] at hmem
                exact hmem.elim hic (by simp)
          refine (hlimit mem' hlive).mono ?_
          rintro bound _ ⟨hbound, rfl⟩
          exact rebalance_spec hlaw _ (Nat.le_add_right_of_le hbound) harr hc rfl rfl
  | node j l r =>
      -- The only child of a black node is red, and takes its place and colour
      obtain ⟨k, hl, hr, hjcolors, hk⟩ := hak
      have hj : j.color = .red := by
        by_contra hne
        cases hjc : j.color with
        | red => exact hne hjc
        | black => rw [hjc, Color.weight_black] at hk; omega
      obtain rfl : k = 0 := by omega
      obtain rfl := hl.eq_nil (hjcolors hj).1
      obtain rfl := hr.eq_nil (hjcolors hj).2
      simp only [cells, Heap.holds_cons] at ha
      obtain ⟨hjget, -⟩ := ha
      have hjc : j.ptr ∉ c.ptrs := fun hmem =>
        (Context.nodup_fill.mp hnodup').2.2 hmem (by simp)
      have hij : i.ptr ≠ j.ptr := fun heq => hia (by simp [heq])
      simp only [hblack, root_node, runs_bind, runs_load, hjget, hi, Option.some.injEq,
        exists_eq_left', runs_debugAssert, Item.toNode_color, hj, beq_self_eq_true, implies_true,
        true_and, Item.toNode_parent, runs_modifyNode]
      set mem₁ : TreeMem P E S := { mem with heap := mem.heap.set j.ptr _ } with hmem₁
      have hagree₁ : Heap.AgreeOff [j.ptr] mem.heap mem₁.heap :=
        Heap.AgreeOff.set _ (List.mem_singleton_self _) _
      set a' : Tree P E S := node { j with color := .black } nil nil with ha'
      have hseq : a'.seq = (node j nil nil).seq := rfl
      have hptrs : (c.fill a').ptrs = (c.fill (node j nil nil)).ptrs := c.ptrs_fill_congr rfl
      have hcells₁ : mem₁.heap.Holds (c.cells (some i.ptr)) :=
        Context.holds_cells_agree hagree₁ hcells (by simpa using hjc)
      refine (writeSlot_represents a' (show mem₁.tree = _ from htree) hcells₁ ?_ ?_).mono ?_
      · simp [hmem₁, ha', cells, Item.toNode]
      · rwa [hptrs]
      · rintro _ mem' ⟨hrep', hagree⟩
        have harr : Arranged sums callback (c.fill a').ptrs mem.heap (c.fill a').seq mem' c a' := by
          refine ⟨hrep', rfl, ?_, fun _ hp => hp, (hagree₁.mono ?_).trans hagree⟩
          · intro hs
            have := hlaw hs
            obtain ⟨hcsum, hjsum⟩ := Context.summed_fill.mp (hsum hs)
            exact Context.summed_fill.mpr ⟨hcsum, hjsum⟩
          · simp [(c.ptrs_fill_perm _).mem_iff, ha']
        rw [← hptrs, ← hseq, ← c.seq_fill]
        exact ⟨harr.linked hc ⟨0, rfl, rfl, by simp, rfl⟩ (by simp [ha']), harr.agree⟩

/-- `unlinkWith` leaves the cell of the node as it is, with its links into the tree. -/
theorem unlink_spec {sums : Prop} (hlaw : sums → LawfulCallback callback)
    {limit : TreeM P E S ℕ} {mem : TreeMem P E S} {c : Context P E S}
    {i : Item P E S} {a : Tree P E S} {k : ℕ} (hrep : Represents mem c (node i a nil))
    (hrb : (c.fill (node i a nil)).RedBlack k) (hsum : sums → (c.fill a).Summed callback)
    (hlimit : Allows limit (c.fill (node i a nil)).height (c.fill (node i a nil)).ptrs) :
    Runs (unlinkWith limit debug callback i.ptr) mem fun _ mem' =>
      Linked sums callback mem' (c.pre ++ a.seq ++ c.post) ∧
        (∃ n, mem'.heap.get i.ptr = some n ∧ n.element = i.element) ∧
        Heap.AgreeOff (c.fill (node i a nil)).ptrs mem.heap mem'.heap := by
  obtain ⟨h, hc, ht, hcolor⟩ := Context.redBlack_of_fill hrb
  have hi := hrep.get_root (d := false)
  have hic := hrep.root_not_mem (d := false)
  have hia := ((nodup_fork (d := false)).mp (Context.nodup_fill.mp hrep.nodup).2.1).1
  have hshrink : (c.fill a).height ≤ (c.fill (node i a nil)).height := by
    apply c.height_fill_mono
    simp only [height]
    omega
  refine (unlink_linked hlaw hrep hc ht hcolor hsum (hlimit.mono hshrink fun _ hp => hp)).mono ?_
  rintro _ mem' ⟨hlinked, hagree⟩
  refine ⟨hlinked, ⟨_, (hagree i.ptr ?_).trans hi, rfl⟩, hagree.mono fun p hp => ?_⟩
  · rw [(c.ptrs_fill_perm _).mem_iff, List.mem_append, not_or]
    exact ⟨hic, hia⟩
  · rw [(c.ptrs_fill_perm _).mem_iff, List.mem_append] at hp ⊢
    exact hp.imp_right fun hpa => by simp [hpa]

/-! ## Taking the element out of the summaries -/

namespace Context

/-- Apply `f` to the summaries of the nodes on the path. -/
def mapSummary (f : S → S) : Context P E S → Context P E S
  | top => top
  | frame side item sibling up => frame side (item.mapSummary f) sibling (up.mapSummary f)

section MapSummary
variable (f : S → S) (c : Context P E S)

omit [DecidableEq P]

@[simp] theorem pre_mapSummary : (c.mapSummary f).pre = c.pre := by
  induction c with
  | top => rfl
  | frame side item sibling up ih =>
      cases side <;> simp [mapSummary, pre, ih]
      rfl

@[simp] theorem post_mapSummary : (c.mapSummary f).post = c.post := by
  induction c with
  | top => rfl
  | frame side item sibling up ih =>
      cases side <;> simp [mapSummary, post, ih]
      rfl

@[simp] theorem ptrs_mapSummary : (c.mapSummary f).ptrs = c.ptrs := by
  simp [ptrs]

@[simp] theorem ptr_mapSummary : (c.mapSummary f).ptr = c.ptr := by
  cases c <;> rfl

@[simp] theorem color_mapSummary : (c.mapSummary f).color = c.color := by
  cases c <;> rfl

theorem redBlack_mapSummary {h : ℕ} (hc : c.RedBlack h) : (c.mapSummary f).RedBlack h := by
  induction c generalizing h with
  | top => trivial
  | frame side item sibling up ih =>
      obtain ⟨hsib, hcolors, hup⟩ := hc
      refine ⟨hsib, fun hred => ⟨(hcolors hred).1, ?_⟩, ih hup⟩
      rw [color_mapSummary]
      exact (hcolors hred).2

theorem height_mapSummary {t t' : Tree P E S} (hheight : t'.height = t.height) :
    ((c.mapSummary f).fill t').height = (c.fill t).height := by
  induction c generalizing t t' with
  | top => exact hheight
  | frame side item sibling up ih =>
      apply ih
      rw [height_fork, height_fork, hheight]

end MapSummary

omit [DecidableEq P] in
/-- Without the contribution `x`, the summaries are right for a hole that is worth `x` less. -/
theorem summed_mapSummary [LawfulCallback callback] {c : Context P E S} {hole x : S}
    (hc : c.Summed callback (callback.addAssignSummary hole x)) :
    (c.mapSummary fun s => callback.subAssignSummary s x).Summed callback hole := by
  induction c generalizing hole with
  | top => trivial
  | frame side item sibling up ih =>
      obtain ⟨hitem, hsib, hup⟩ := hc
      rw [show ∀ a b c d, callback.addAssignSummary (callback.addAssignSummary
        (callback.addAssignSummary a b) c) d = callback.addAssignSummary (callback.addAssignSummary
        (callback.addAssignSummary a c) d) b from fun a b c d => by ac_rfl] at hitem hup
      refine ⟨?_, hsib, ih hup⟩
      show callback.subAssignSummary item.summary x = _
      rw [hitem, LawfulCallback.add_sub_cancel]
      rfl

end Context

theorem excludeSummary_spec {localSummary : S} (fuel : ℕ) :
    ∀ {mem : TreeMem P E S} {c : Context P E S} {d : IsRightChild} {i : Item P E S}
      {a b : Tree P E S}, c.depth < fuel → Represents mem c (fork d i a b) →
      Runs (excludeSummary callback localSummary fuel (some i.ptr)) mem fun _ mem' =>
        Represents mem' (c.mapSummary fun s => callback.subAssignSummary s localSummary)
          (fork d (i.mapSummary fun s => callback.subAssignSummary s localSummary) a b) ∧
          Heap.AgreeOff (c.fill (fork d i a b)).ptrs mem.heap mem'.heap := by
  induction fuel with
  | zero => intro _ _ _ _ _ _ hdepth; omega
  | succ fuel ih =>
      intro mem c d i a b hdepth hrep
      set f : S → S := fun s => callback.subAssignSummary s localSummary with hf
      simp only [excludeSummary, runs_bind]
      refine (modifyItem_spec hrep (i.mapSummary f) rfl fun _ _ => rfl).mono ?_
      rintro _ mem₁ ⟨hrep₁, hagree₁⟩
      have hi₁ := hrep₁.get_root
      rw [show (i.mapSummary f).ptr = i.ptr from rfl] at hi₁
      simp only [runs_load, hi₁, Option.some.injEq, exists_eq_left', Item.toNode_parent]
      have hfill : (c.fill (fork d (i.mapSummary f) a b)).ptrs = (c.fill (fork d i a b)).ptrs :=
        c.ptrs_fill_congr (by cases d <;> rfl)
      have hroot : ∀ p ∈ [i.ptr], p ∈ (c.fill (fork d i a b)).ptrs := by
        simp [(c.ptrs_fill_perm _).mem_iff]
      cases c with
      | top =>
          simp only [Context.ptr_top, excludeSummary, runs_pure]
          exact ⟨hrep₁, hagree₁.mono hroot⟩
      | frame side item sibling up =>
          simp only [Context.depth] at hdepth
          refine (ih (by omega) (represents_frame.mp hrep₁)).mono ?_
          rintro _ mem' ⟨hrep', hagree'⟩
          rw [← Context.fill_frame, hfill] at hagree'
          exact ⟨represents_frame.mpr hrep', (hagree₁.mono hroot).trans hagree'⟩

/-! ## The whole operation -/

/-- The children change sides when there is only a right one. -/
theorem swapChildren_spec {mem : TreeMem P E S} {c : Context P E S} {i : Item P E S}
    {b : Tree P E S} (hrep : Represents mem c (node i nil b)) :
    Runs (modifyNode i.ptr fun x => { x with children := fun side => x.children (!side) }) mem
      fun _ mem' => Represents mem' c (node i b nil) ∧
        Heap.AgreeOff [i.ptr] mem.heap mem'.heap := by
  have hic := hrep.root_not_mem (d := false)
  obtain ⟨htree, hc, hfocus, hnodup⟩ := hrep
  obtain ⟨hi, -, hb⟩ := (holds_cells_fork (d := false)).mp hfocus
  have hib := ((nodup_fork (d := false)).mp (Context.nodup_fill.mp hnodup).2.1).2.1
  have hagree : ∀ n, Heap.AgreeOff [i.ptr] mem.heap (mem.heap.set i.ptr n) :=
    Heap.AgreeOff.set _ (List.mem_singleton_self _)
  refine runs_modifyNode.mpr ⟨_, hi, ⟨htree, ?_, ?_, ?_⟩, hagree _⟩
  · exact Context.holds_cells_agree (hagree _) hc (by simpa using hic)
  · refine (holds_cells_fork (d := false)).mpr ⟨?_, holds_cells_set hb _ hib, Heap.holds_nil _⟩
    have hswap : (fun s => sides false (none : Option P) b.root (!s)) =
        sides false b.root none := by
      funext s
      cases s <;> rfl
    simp only [Heap.get_set_self, Item.toNode_children, root_nil, hswap]
    rfl
  · have hperm : (node i b nil).ptrs.Perm (node i nil b).ptrs := by
      simp
    have hfill := ((c.ptrs_fill_perm _).trans (hperm.append_left _)).trans (c.ptrs_fill_perm _).symm
    exact hfill.nodup_iff.mpr hnodup

/-- A node with two children, which `excludeSummary` has left with the total of the two. -/
theorem exchange_unlink_spec {sums : Prop} (hlaw : sums → LawfulCallback callback)
    {limit : TreeM P E S ℕ} {mem : TreeMem P E S} {c : Context P E S}
    {i pred : Item P E S} {path : Spine P E S} {left b : Tree P E S} {child : P} {h : ℕ}
    (hrep : Represents mem c (node i (path.fill (node pred left nil)) b))
    (hchild : (path.fill (node pred left nil)).root = some child) (hc : c.RedBlack h)
    (ht : (node i (path.fill (node pred left nil)) b).RedBlack h)
    (hcolor : i.color = .red → c.color = .black)
    (hsum : sums → c.Summed callback (callback.addAssignSummary
        ((path.fill (node pred left nil)).total callback) (b.total callback)) ∧
      i.summary = callback.addAssignSummary
        ((path.fill (node pred left nil)).total callback) (b.total callback) ∧
      (path.fill (node pred left nil)).Summed callback ∧ b.Summed callback)
    (hlimit : Allows limit (c.fill (node i (path.fill (node pred left nil)) b)).height
      (c.fill (node i (path.fill (node pred left nil)) b)).ptrs) :
    Runs (do
      exchangeWith limit debug callback i.ptr child c.ptr
      unlinkWith limit debug callback i.ptr) mem fun _ mem' =>
        Linked sums callback mem'
          (c.pre ++ (path.fill (node pred left nil)).seq ++ b.seq ++ c.post) ∧
          (∃ n, mem'.heap.get i.ptr = some n ∧ n.element = i.element) ∧
          Heap.AgreeOff (c.fill (node i (path.fill (node pred left nil)) b)).ptrs mem.heap
            mem'.heap := by
  refine (exchangeWith_spec hrep hchild hlimit).bind ?_
  rintro _ mem₁ ⟨hrep₁, hagree₁⟩
  set f : S → S := fun s => callback.subAssignSummary s (callback.elementToSummary pred.element)
    with hf
  set i' : Item P E S := { i with color := pred.color, summary := pred.summary } with hi'
  set pred' : Item P E S := { pred with color := i.color, summary := i.summary } with hpred'
  set c' := (path.mapSummary f).context (.frame false pred' b c) with hc'
  have hfill : ∀ t, c'.fill t = c.fill (node pred' ((path.mapSummary f).fill t) b) := fun t => by
    rw [hc', Spine.fill_context]
    rfl
  have hrep' : Represents mem₁ c' (node i' left nil) := by
    rw [represents_fill, hfill, ← represents_fill]
    exact hrep₁
  obtain ⟨k', hk'⟩ : ∃ k, (c'.fill (node i' left nil)).RedBlack k := by
    obtain ⟨k, hak, hbk, hcolors, rfl⟩ := ht
    have hnode : ∀ h, (node pred left nil).RedBlack h → (node i' left nil).RedBlack h :=
      fun _ h => h
    have hsame : (node i' left nil).color = (node pred left nil).color := rfl
    obtain ⟨hspinecolor, hspinerb⟩ := path.redBlack_mapSummary f hsame hnode
    rw [hfill]
    refine Context.redBlack_fill hc ⟨k, hspinerb k hak, hbk, fun hred => ⟨?_, ?_⟩, rfl⟩ hcolor
    · exact hspinecolor.trans (hcolors hred).1
    · exact (hcolors hred).2
  have hsum' : sums → (c'.fill left).Summed callback := by
    intro hs
    have := hlaw hs
    obtain ⟨hcsum, hisum, hasum, hbsum⟩ := hsum hs
    have htotal : (node pred left nil).total callback = callback.addAssignSummary
        (left.total callback) (callback.elementToSummary pred.element) :=
      LawfulCallback.add_zero _
    have hleft : left.Summed callback := (Spine.summed_of_fill hasum).2.1
    obtain ⟨hspinetotal, hspinesum⟩ := Spine.summed_mapSummary htotal hasum hleft
    have hnode : (node pred' ((path.mapSummary f).fill left) b).total callback =
        callback.addAssignSummary ((path.fill (node pred left nil)).total callback)
          (b.total callback) := by
      rw [total, Spine.total_mapSummary, hspinetotal]
    rw [hfill, Context.summed_fill, hnode]
    exact ⟨hcsum, hisum.trans hnode.symm, hspinesum, hbsum⟩
  -- The tree has the shape that it had, and the same nodes
  have hptrs : ∀ p, p ∈ (c'.fill (node i' left nil)).ptrs ↔
      p ∈ (c.fill (node i (path.fill (node pred left nil)) b)).ptrs := by
    intro p
    rw [hfill, (ptrs_exchange_perm c pred' i' _ left b).mem_iff, Spine.ptrs_mapSummary,
      (ptrs_exchange_perm c i pred path left b).mem_iff]
    simp only [List.mem_cons]
    tauto
  have hheight : (c'.fill (node i' left nil)).height ≤
      (c.fill (node i (path.fill (node pred left nil)) b)).height := by
    rw [hfill]
    apply c.height_fill_mono
    have hspine : ((path.mapSummary f).fill (node i' left nil)).height =
        (path.fill (node pred left nil)).height := Spine.height_mapSummary f path rfl
    simp only [height, hspine, le_refl]
  refine (unlink_spec hlaw hrep' hk' hsum'
    (hlimit.mono hheight fun p hp => (hptrs p).mpr hp)).mono ?_
  rintro _ mem' ⟨hlinked', helement, hagree'⟩
  refine ⟨?_, helement, hagree₁.trans (hagree'.mono fun p hp => (hptrs p).mp hp)⟩
  simpa [hc', Spine.pre_context, Spine.post_context, Context.pre, Context.post, Spine.seq_fill,
    hpred', Item.entry] using hlinked'

/-- `remove` deletes exactly its node from the sequence.  The node keeps its element. -/
theorem removeWith_spec {sums : Prop} (hlaw : sums → LawfulCallback callback)
    {limit : TreeM P E S ℕ} {mem : TreeMem P E S} {t : Tree P E S} {k : ℕ} {pre post : List (P × E)}
    {p : P} {e : E} (hrep : Represents mem .top t) (hrb : t.RedBlack k)
    (hsum : sums → t.Summed callback) (hseq : t.seq = pre ++ (p, e) :: post)
    (hlimit : Allows limit t.height t.ptrs) :
    Runs (removeWith limit debug callback p) mem fun _ mem' =>
      Linked sums callback mem' (pre ++ post) ∧
      (∃ n, mem'.heap.get p = some n ∧ n.element = e) ∧
      Heap.AgreeOff ((pre ++ (p, e) :: post).map Prod.fst) mem.heap mem'.heap := by
  obtain ⟨c, i, a, b, hfill, hi, hpre, hpost⟩ := Context.exists_focus .top hseq
  simp only [Context.fill_top, Context.pre, Context.post, List.nil_append, List.append_nil]
    at hfill hpre hpost
  subst hfill
  obtain ⟨rfl, rfl⟩ : i.ptr = p ∧ i.element = e := by simpa [Item.entry] using hi
  rw [← hpre, ← hpost]
  have hrep₀ : Represents mem c (fork false i a b) := represents_fill.mpr hrep
  obtain ⟨h, hc, ht, hcolor⟩ := Context.redBlack_of_fill hrb
  set f : S → S := fun s =>
    callback.subAssignSummary s (callback.elementToSummary i.element) with hf
  have hsum' : sums → (c.mapSummary f).Summed callback
        (callback.addAssignSummary (a.total callback) (b.total callback)) ∧
      f i.summary = callback.addAssignSummary (a.total callback) (b.total callback) ∧
      a.Summed callback ∧ b.Summed callback := by
    intro hs
    have := hlaw hs
    obtain ⟨hcsum, hisum, hasum, hbsum⟩ := Context.summed_fill.mp (hsum hs)
    have hrest : (node i a b).total callback = callback.addAssignSummary
        (callback.addAssignSummary (a.total callback) (b.total callback))
        (callback.elementToSummary i.element) := by
      simp only [total]
      ac_rfl
    refine ⟨Context.summed_mapSummary (hrest ▸ hcsum), ?_, hasum, hbsum⟩
    rw [hisum, hrest]
    exact LawfulCallback.add_sub_cancel _ _
  have hc' := c.redBlack_mapSummary f hc
  have hcolor' : i.color = .red → (c.mapSummary f).color = .black := by
    rw [Context.color_mapSummary]
    exact hcolor
  have hptrs : ((c.mapSummary f).fill (fork false (i.mapSummary f) a b)).ptrs =
      (c.fill (node i a b)).ptrs := by
    simp [ptrs, Context.seq_fill, fork, Item.mapSummary, Item.entry]
  have hfoot : (c.pre ++ a.seq ++ (i.ptr, i.element) :: (b.seq ++ c.post)).map Prod.fst =
      (c.fill (node i a b)).ptrs := by
    simp [ptrs, Context.seq_fill, Item.entry]
  -- The summaries on the path change neither the shape nor the nodes
  have hlimit' : Allows limit ((c.mapSummary f).fill (fork false (i.mapSummary f) a b)).height
      ((c.mapSummary f).fill (fork false (i.mapSummary f) a b)).ptrs := by
    have hheight : ((c.mapSummary f).fill (fork false (i.mapSummary f) a b)).height =
        (c.fill (node i a b)).height := c.height_mapSummary f rfl
    rw [hptrs, hheight]
    exact hlimit
  rw [hfoot]
  simp only [removeWith, runs_bind, runs_load, hrep₀.get_root, Option.some.injEq, exists_eq_left',
    Item.toNode_element]
  refine (hlimit mem hrep.live).mono ?_
  rintro bound mem₀ ⟨hbound, hmem⟩
  rw [hmem]
  have hdepth : c.depth < bound := by
    have hdown := c.depth_add_height_le (node i a b)
    simp only [height] at hdown
    omega
  refine (excludeSummary_spec _ hdepth hrep₀).mono ?_
  rintro _ mem₁ ⟨hrep₁, hagree₁⟩
  have hi₁ := hrep₁.get_root
  rw [show (i.mapSummary f).ptr = i.ptr from rfl] at hi₁
  simp only [hi₁, Option.some.injEq, exists_eq_left', Item.toNode_parent, Item.toNode_children,
    sides_self, sides_true]
  cases hb : b.root with
  | none =>
      -- At most a left child
      obtain rfl := root_eq_none.mp hb
      have hunlink : Runs (unlinkWith limit debug callback i.ptr) mem₁ fun _ mem' =>
          Linked sums callback mem' (c.pre ++ a.seq ++ ((nil : Tree P E S).seq ++ c.post)) ∧
            (∃ n, mem'.heap.get i.ptr = some n ∧ n.element = i.element) ∧
            Heap.AgreeOff (c.fill (node i a nil)).ptrs mem.heap mem'.heap := by
        obtain ⟨k', hk'⟩ := Context.redBlack_fill hc'
          (show (node (i.mapSummary f) a nil).RedBlack h from ht) hcolor'
        have hrest : sums → ((c.mapSummary f).fill a).Summed callback := by
          intro hs
          have := hlaw hs
          obtain ⟨hcsum, -, hasum, -⟩ := hsum' hs
          rw [total, LawfulCallback.add_zero] at hcsum
          exact Context.summed_fill.mpr ⟨hcsum, hasum⟩
        refine (unlink_spec hlaw hrep₁ hk' hrest hlimit').mono ?_
        rintro _ mem' ⟨hlinked', helement, hagree'⟩
        have hagree₂ : Heap.AgreeOff (c.fill (node i a nil)).ptrs mem₁.heap mem'.heap :=
          hptrs ▸ hagree'
        exact ⟨by simpa using hlinked', helement, hagree₁.trans hagree₂⟩
      cases c with
      | top =>
          cases ha : a.root with
          | none =>
              obtain rfl := root_eq_none.mp ha
              have htree : mem₁.tree = some i.ptr := hrep₁.tree_eq
              simp only [Context.mapSummary, Context.ptr_top, runs_bind, runs_get, runs_debugAssert,
                runs_modify, htree, beq_self_eq_true, implies_true, true_and]
              have hempty : Represents { mem₁ with tree := none } .top (nil : Tree P E S) :=
                ⟨rfl, Heap.holds_nil _, Heap.holds_nil _, List.nodup_nil⟩
              exact ⟨⟨nil, 0, hempty, rfl, fun _ => trivial, rfl⟩, ⟨_, hi₁, rfl⟩, hagree₁⟩
          | some child => simpa only [Context.mapSummary, Context.ptr_top] using hunlink
      | frame side q sibling up =>
          cases ha : a.root <;> simpa only [Context.mapSummary, Context.ptr_frame] using hunlink
  | some right =>
      cases ha : a.root with
      | none =>
          obtain rfl := root_eq_none.mp ha
          have hgoal : Runs (do
              modifyNode i.ptr fun x => { x with children := fun side => x.children (!side) }
              unlinkWith limit debug callback i.ptr) mem₁ fun _ mem' =>
                Linked sums callback mem' (c.pre ++ (nil : Tree P E S).seq ++ (b.seq ++ c.post)) ∧
                  (∃ n, mem'.heap.get i.ptr = some n ∧ n.element = i.element) ∧
                  Heap.AgreeOff (c.fill (node i nil b)).ptrs mem.heap mem'.heap := by
            refine (swapChildren_spec hrep₁).bind ?_
            rintro _ mem₂ ⟨hrep₂, hagree₂⟩
            have ht' : (node (i.mapSummary f) b nil).RedBlack h := by
              obtain ⟨k, hak, hbk, hcolors, rfl⟩ := ht
              exact ⟨k, hbk, hak, fun hred => (hcolors hred).symm, rfl⟩
            obtain ⟨k', hk'⟩ := Context.redBlack_fill hc' ht' hcolor'
            have hrest : sums → ((c.mapSummary f).fill b).Summed callback := by
              intro hs
              have := hlaw hs
              obtain ⟨hcsum, -, -, hbsum⟩ := hsum' hs
              rw [total, LawfulCallback.zero_add] at hcsum
              exact Context.summed_fill.mpr ⟨hcsum, hbsum⟩
            have hsame : (node (i.mapSummary f) b nil).height =
                (fork false (i.mapSummary f) nil b).height := by
              simp only [fork, height]
              omega
            have hlimit₂ : Allows limit ((c.mapSummary f).fill (node (i.mapSummary f) b nil)).height
                ((c.mapSummary f).fill (node (i.mapSummary f) b nil)).ptrs := by
              refine hlimit'.mono ((c.mapSummary f).height_fill_mono hsame.le) fun p hp => ?_
              rw [(Context.ptrs_fill_perm _ _).mem_iff] at hp ⊢
              simpa [fork, or_comm] using hp
            refine (unlink_spec hlaw hrep₂ hk' hrest hlimit₂).mono ?_
            rintro _ mem' ⟨hlinked', helement, hagree'⟩
            refine ⟨by simpa using hlinked', helement,
              (hagree₁.trans (hagree₂.mono ?_)).trans (hagree'.mono fun p hp => ?_)⟩
            · simp [(c.ptrs_fill_perm _).mem_iff, fork, Item.mapSummary]
            · rw [((c.mapSummary f).ptrs_fill_perm _).mem_iff] at hp
              rw [(c.ptrs_fill_perm _).mem_iff]
              simp only [Context.ptrs_mapSummary, List.mem_append, ptrs_node, ptrs_nil, fork,
                List.nil_append, List.mem_cons, List.not_mem_nil, or_false] at hp ⊢
              exact hp.imp_right Or.symm
          cases hcp : (c.mapSummary f).ptr <;> exact hgoal
      | some child =>
          obtain ⟨path, pred, left, rfl⟩ := Spine.exists_fill ha
          have hgoal : Runs (do
              exchangeWith limit debug callback i.ptr child (c.mapSummary f).ptr
              unlinkWith limit debug callback i.ptr) mem₁ fun _ mem' =>
                Linked sums callback mem' (c.pre ++ (path.fill (node pred left nil)).seq ++
                  (b.seq ++ c.post)) ∧
                  (∃ n, mem'.heap.get i.ptr = some n ∧ n.element = i.element) ∧
                  Heap.AgreeOff (c.fill (node i (path.fill (node pred left nil)) b)).ptrs mem.heap
                    mem'.heap := by
            refine (exchange_unlink_spec hlaw hrep₁ ha hc' ht hcolor' hsum' hlimit').mono ?_
            rintro _ mem' ⟨hlinked', helement, hagree'⟩
            refine ⟨by simpa using hlinked', helement, hagree₁.trans ?_⟩
            exact hptrs ▸ hagree'
          cases hcp : (c.mapSummary f).ptr <;> rw [hcp] at hgoal <;> exact hgoal

theorem remove_spec {sums : Prop} (hlaw : sums → LawfulCallback callback)
    {mem : TreeMem P E S} {pre post : List (P × E)}
    {p : P} {e : E} (hlinked : Linked sums callback mem (pre ++ (p, e) :: post)) :
    Runs (remove debug callback p) mem fun _ mem' => Linked sums callback mem' (pre ++ post) ∧
      (∃ n, mem'.heap.get p = some n ∧ n.element = e) ∧
      Heap.AgreeOff ((pre ++ (p, e) :: post).map Prod.fst) mem.heap mem'.heap := by
  obtain ⟨t, k, hrep, hrb, hsum, hseq⟩ := hlinked
  unfold Node.remove
  exact removeWith_spec hlaw hrep hrb hsum hseq hrep.allows_fuel

end Interlock.RbTree
