import Interlock.RbTree.Rotate
import Interlock.RbTree.Limit

/-!
# Insertion

`descend` walks down to an empty place, adding the new summary to every node it passes; the nodes
on the way then form a context whose sides are the answers of the comparator (`Searched`).  The
fix-up loop climbs that context again.  Its invariant is that the focus is a red root and that the
only possible violation is between it and its parent.
-/

namespace Interlock.RbTree

open Memory Node Interlock.RbTree.Tree

variable {P E S : Type} [DecidableEq P] {debug : Bool} {callback : Callback E S}

/-- The direction that `cmpElement` gives for a new element, `Less` alone leading to the left. -/
def goesRight (callback : Callback E S) (element existing : E) : Bool :=
  callback.cmpElement element existing != .lt

/-! ## Finding the place -/

/-- `descend` links the new node below the last node of the search path. -/
theorem descend_spec {sums : Prop} (hlaw : sums → LawfulCallback callback) {newNode : P}
    {n : Node P E S}
    (hn : n.children = fun _ => none) (fuel : ℕ) :
    ∀ {t : Tree P E S} {c : Context P E S} {mem : TreeMem P E S} {parent : P} {h : ℕ},
      t.height ≤ fuel → t.root = some parent → Represents mem c t →
      mem.heap.get newNode = some n → newNode ∉ (c.fill t).ptrs →
      c.Searched (goesRight callback n.element) →
      c.RedBlack h → t.RedBlack h → (t.color = .red → c.color = .black) →
      (sums → c.Summed callback (callback.addAssignSummary (t.total callback) n.summary) ∧
        t.Summed callback) →
      Runs (descend debug callback newNode fuel parent c.slot) mem fun r mem' =>
        ∃ side item sibling up, r = (item.ptr, side, up.slot) ∧
          Represents mem' (.frame side item sibling up)
            (node ⟨newNode, n.color, n.summary, n.element⟩ nil nil) ∧
          (Context.frame side item sibling up).Searched (goesRight callback n.element) ∧
          (Context.frame side item sibling up).pre ++ (Context.frame side item sibling up).post =
            c.pre ++ t.seq ++ c.post ∧
          (Context.frame side item sibling up).depth ≤ c.depth + t.height ∧
          (Context.frame side item sibling up).RedBlack 0 ∧
          (sums → (Context.frame side item sibling up).Summed callback n.summary) ∧
          Heap.AgreeOff (newNode :: (c.fill t).ptrs) mem.heap mem'.heap := by
  induction fuel with
  | zero =>
      intro t c mem parent h hheight hroot
      cases t with
      | nil => simp at hroot
      | node item left right => simp [height] at hheight
  | succ fuel ih =>
      intro t c mem parent h hheight hroot hrep hnew hfresh hsearched hc ht hcolor hsum
      obtain ⟨i, a, b, rfl, rfl⟩ :=
        exists_fork_of_root (fun i => goesRight callback n.element i.element) hroot
      obtain ⟨k, ha, hb, hred, rfl⟩ := redBlack_fork.mp ht
      set d := goesRight callback n.element i.element with hd
      have hne : i.ptr ≠ newNode := fun heq => hfresh (by simp [(c.ptrs_fill_perm _).mem_iff, heq])
      simp only [descend, runs_bind, runs_debugAssert, runs_load, hnew, Option.some.injEq,
        exists_eq_left']
      refine ⟨fun _ => by simpa using hne, ?_⟩
      -- The summary of the node on the way
      refine (modifyItem_spec hrep
        { i with summary := callback.addAssignSummary i.summary n.summary }
        rfl fun _ _ => rfl).mono ?_
      rintro _ mem₁ ⟨hrep₁, hagree₁⟩
      have hi₁ := hrep₁.get_root
      have hnew₁ : mem₁.heap.get newNode = some n :=
        (hagree₁ newNode (by simpa using hne.symm)).trans hnew
      simp only [hi₁, hnew₁, Option.some.injEq, exists_eq_left', Item.toNode_element,
        Item.toNode_children]
      rw [show (callback.cmpElement n.element i.element != .lt) = d from rfl, sides_self]
      set i' : Item P E S :=
        { i with summary := callback.addAssignSummary i.summary n.summary } with hi'
      have hfill : (c.fill (fork d i' a b)).ptrs = (c.fill (fork d i a b)).ptrs :=
        c.ptrs_fill_congr (by cases d <;> simp [fork, hi'])
      have hsub : ∀ p ∈ [i.ptr], p ∈ newNode :: (c.fill (fork d i a b)).ptrs := by
        simp [(c.ptrs_fill_perm _).mem_iff]
      have hseq : (Context.frame d i' b c).pre ++ a.seq ++ (Context.frame d i' b c).post =
          c.pre ++ (fork d i a b).seq ++ c.post := by
        cases d <;> simp [Context.pre, Context.post, fork, Item.entry, hi']
      have hframe : (Context.frame d i' b c).Searched (goesRight callback n.element) :=
        ⟨hd, hsearched⟩
      have hframeRB : (Context.frame d i' b c).RedBlack k :=
        ⟨hb, fun hi => ⟨(hred hi).2, hcolor (by simpa using hi)⟩, hc⟩
      have hframeSum : sums → (Context.frame d i' b c).Summed callback
          (callback.addAssignSummary (a.total callback) n.summary) ∧ a.Summed callback := by
        intro hs
        have := hlaw hs
        obtain ⟨hcsum, htsum⟩ := hsum hs
        obtain ⟨hisum, hasum, hbsum⟩ := summed_fork.mp htsum
        refine ⟨⟨?_, hbsum, ?_⟩, hasum⟩
        · show callback.addAssignSummary i.summary n.summary = _
          rw [hisum]
          ac_rfl
        · convert hcsum using 1
          rw [total_fork]
          ac_rfl
      cases ha' : a.root with
      | some child =>
          refine (ih (c := .frame d i' b c) ?_ ha' (represents_frame.mpr hrep₁) hnew₁ ?_ hframe
            hframeRB ha ?_ hframeSum).mono ?_
          · rw [height_fork] at hheight
            omega
          · rwa [Context.fill_frame, hfill]
          · intro hared
            cases hic : i.color with
            | black => exact hic
            | red => exact absurd (hred hic).1 (by simp [hared])
          · rintro r mem' ⟨side, item, sibling, up, hr, hrep', hsearched', hseq', hdepth',
              hrb', hsum', hagree'⟩
            rw [Context.fill_frame, hfill] at hagree'
            refine ⟨side, item, sibling, up, hr, hrep', hsearched', hseq'.trans hseq, ?_, hrb',
              hsum', (hagree₁.mono hsub).trans hagree'⟩
            rw [height_fork]
            rw [show (Context.frame d i' b c).depth = c.depth + 1 from rfl] at hdepth'
            omega
      | none =>
          obtain rfl := root_eq_none.mp ha'
          obtain rfl : k = 0 := ha
          refine (link_spec (represents_frame.mpr hrep₁) hnew₁ hn ?_).bind ?_
          · intro hmem
            refine hfresh ((c.ptrs_fill_perm _).mem_iff.mpr ?_)
            simp only [Context.mem_ptrs_frame, List.mem_append, mem_ptrs_fork] at hmem ⊢
            rcases hmem with hmem | hmem | hmem <;> simp [hmem, hi']
          · rintro _ mem₂ hlink
            refine hlink.bind ?_
            rintro _ mem' ⟨hrep', hagree'⟩
            simp only [runs_pure]
            refine ⟨d, i', b, c, rfl, hrep', hframe, by simpa using hseq, ?_, hframeRB, ?_, ?_⟩
            · rw [height_fork]
              simp only [Context.depth]
              omega
            · intro hs
              have := hlaw hs
              obtain ⟨hsum', -⟩ := hframeSum hs
              rwa [total, LawfulCallback.zero_add] at hsum'
            · refine (hagree₁.mono hsub).trans (hagree'.mono fun p hp => ?_)
              simp only [Context.mem_ptrs_frame, List.mem_cons, (c.ptrs_fill_perm _).mem_iff,
                List.mem_append, mem_ptrs_fork, hi'] at hp ⊢
              rcases hp with hp | hp | hp | hp <;> simp [hp]

/-! ## Restoring the colours -/

theorem filterRed_spec {mem : TreeMem P E S} {t : Tree P E S} {parent : Option P}
    (hold : mem.heap.Holds (t.cells parent)) {post : Option P → TreeMem P E S → Prop} :
    Runs (filterRed t.root) mem post ↔ post (if t.color = .red then t.root else none) mem := by
  cases t with
  | nil => simp [filterRed]
  | node item left right =>
      simp only [cells, Heap.holds_cons] at hold
      by_cases hcolor : item.color = .red
      · simp [filterRed, hold.1, hcolor]
      · simp [filterRed, hold.1, hcolor]

section Fixup
variable {sums : Prop} (hlaw : sums → LawfulCallback callback) {ps : List P}
  {heap₀ : Heap P (Node P E S)} {seq : List (P × E)}

include hlaw

/-- A red node on the outer side of its red parent: one rotation and two repaints. -/
theorem rotateOuter_spec {mem : TreeMem P E S} {c : Context P E S} {d : IsRightChild}
    {g p : Item P E S} {t s u : Tree P E S} {h : ℕ}
    (harr : Arranged sums callback ps heap₀ seq mem c (fork (!d) g (fork d p s t) u))
    (hc : c.RedBlack (h + 1)) (hs : s.RedBlack h) (hscolor : s.color = .black)
    (hu : u.RedBlack h) (hucolor : u.color = .black) (ht : t.RedBlack h) :
    Runs (do
      rotate debug callback g.ptr d
      modifyNode p.ptr fun n => { n with color := .black }
      modifyNode g.ptr fun n => { n with color := .red }) mem fun _ mem' =>
        Linked sums callback mem' seq ∧ Heap.AgreeOff ps heap₀ mem'.heap := by
  refine (harr.rotate hlaw).bind ?_
  intro _ mem₁ harr₁
  refine (harr₁.recolor hlaw .black).bind ?_
  intro _ mem₂ harr₂
  refine ((arranged_frame.mpr harr₂).recolor hlaw .red).mono ?_
  intro _ mem₃ harr₃
  refine ⟨(arranged_frame.mp harr₃).linked hc ?_ (by simp), harr₃.agree⟩
  refine redBlack_fork.mpr ⟨h, redBlack_fork.mpr ⟨h, hs, hu, ?_, rfl⟩, ht, by simp, rfl⟩
  exact fun _ => ⟨hscolor, hucolor⟩

/-- The loop of `insert` ends in a red-black tree with the same in-order sequence. -/
theorem insertFixup_spec (fuel : ℕ) :
    ∀ {node : P} {t : Tree P E S} {side : IsRightChild} {p : Item P E S} {sibling : Tree P E S}
      {up : Context P E S} {mem : TreeMem P E S} {h : ℕ}, up.depth < fuel →
      t.root = some node → t.color = .red →
      Arranged sums callback ps heap₀ seq mem (.frame side p sibling up) t →
      (Context.frame side p sibling up).RedBlack h → t.RedBlack h →
      Runs (insertFixup debug callback fuel node p.ptr side up.slot) mem fun _ mem' =>
        Linked sums callback mem' seq ∧ Heap.AgreeOff ps heap₀ mem'.heap := by
  induction fuel with
  | zero => intro _ _ _ _ _ _ _ _ hdepth; omega
  | succ fuel ih =>
      intro node t side p sibling up mem h hdepth hroot hred harr hc ht
      obtain ⟨n, m, x, rfl, rfl⟩ := exists_fork_of_root (fun _ => !side) hroot
      have hn := harr.get_root
      have hp := harr.get_parent
      simp only [color_fork] at hred
      simp only [insertFixup, runs_bind, runs_debugAssert, runs_load, hn, hp, Option.some.injEq,
        exists_eq_left', Item.toNode_color, hred, Item.toNode_children, root_fork, sides_self,
        Item.toNode_parent, Context.ptr_frame, beq_self_eq_true, implies_true, true_and]
      by_cases hpc : p.color = .black
      · simp only [hpc, if_true, runs_pure]
        exact ⟨harr.linked hc ht fun _ => hpc, harr.agree⟩
      have hpred : p.color = .red := color_eq_red hpc
      obtain ⟨hsib, hpcolors, hup⟩ := hc
      obtain ⟨hsibcolor, hupcolor⟩ := hpcolors hpred
      simp only [hpred, Color.weight_red, Nat.add_zero] at hup
      simp only [hpc, if_false]
      cases up with
      | top =>
          -- `parent` is the root
          simp only [Context.slot_top]
          refine ((arranged_frame.mp harr).recolor hlaw .black).mono ?_
          intro _ mem' harr'
          refine ⟨harr'.linked (k := h + 1) trivial ?_ (by simp), harr'.agree⟩
          exact redBlack_fork.mpr ⟨h, ht, hsib, by simp, rfl⟩
      | frame gside g uncle upup =>
          obtain ⟨huncle, -, hupup⟩ := hup
          have hgblack : g.color = .black := hupcolor
          simp only [hgblack, Color.weight_black] at hupup
          have hg := (arranged_frame.mp harr).get_parent
          simp only [Context.slot_frame, runs_bind, runs_debugAssert, runs_load, hg, hp,
            Option.some.injEq, exists_eq_left', Item.toNode_color, Item.toNode_children, root_fork,
            sides_self, sides_not, Item.toNode_parent, Context.ptr_frame, hgblack, beq_self_eq_true,
            implies_true, true_and]
          have hfocus := (arranged_frame.mp (arranged_frame.mp harr)).focus
          rw [filterRed_spec (holds_cells_fork.mp hfocus).2.2]
          by_cases hu : uncle.color = .red
          · -- Both children of `grandparent` become black, and it becomes red
            obtain ⟨u, a, b, rfl⟩ : ∃ u a b, uncle = fork false u a b := by
              rcases eq_nil_or_fork false uncle with rfl | hfork
              · simp at hu
              · exact hfork
            obtain ⟨k, ha, hb, hured, rfl⟩ := redBlack_fork.mp huncle
            simp only [color_fork] at hu
            simp only [color_fork, hu, if_true, root_fork, runs_bind]
            refine ((arranged_frame.mp harr).recolor hlaw .black).mono ?_
            intro _ mem₁ harr₁
            refine ((arranged_flip.mp harr₁).recolor hlaw .black).mono ?_
            intro _ mem₂ harr₂
            refine ((arranged_frame.mp harr₂).recolor hlaw .red).mono ?_
            intro _ mem₃ harr₃
            simp only [hu, Color.weight_red, Nat.add_zero] at ht hsib hupup ⊢
            have hgrand : (fork (!gside) { g with color := .red }
                (fork false { u with color := .black } a b)
                (fork side { p with color := .black } (fork (!side) n m x) sibling)).RedBlack
                (k + 1) := by
              refine redBlack_fork.mpr ⟨k + 1, ?_, ?_, by simp, rfl⟩
              · exact redBlack_fork.mpr ⟨k, ha, hb, by simp, rfl⟩
              · exact redBlack_fork.mpr ⟨k, ht, hsib, by simp, rfl⟩
            have hg₃ := harr₃.get_root
            simp only [runs_load, hg₃, Option.some.injEq, exists_eq_left', Item.toNode_parent]
            cases upup with
            | top =>
                simp only [Context.ptr_top, runs_pure]
                exact ⟨harr₃.linked trivial hgrand fun _ => rfl, harr₃.agree⟩
            | frame qside q qsibling qup =>
                have hq₃ := harr₃.get_parent
                have hcontext := harr₃.context
                have hqcontext := (arranged_frame.mp harr₃).context
                simp only [root_fork] at hcontext hqcontext hq₃
                obtain ⟨hqnodup, -, -⟩ := Context.nodup_fill.mp harr₃.nodup
                obtain ⟨-, hqup, -⟩ := Context.nodup_frame.mp hqnodup
                have hgq : g.ptr ∉ qsibling.ptrs := fun hmem => harr₃.root_not_mem (by simp [hmem])
                simp only [Context.ptr_frame, runs_bind, sideOf_spec hcontext hgq, runs_load, hq₃,
                  Option.some.injEq, exists_eq_left', Item.toNode_parent,
                  positionOf_spec hqcontext hqup]
                refine ih ?_ (by simp) (by simp) harr₃ hupup hgrand
                simp only [Context.depth] at hdepth ⊢
                omega
          · -- `uncle` is black
            have hublack : uncle.color = .black := by
              cases huc : uncle.color
              · rfl
              · exact absurd huc hu
            simp only [hu, if_false]
            obtain ⟨k, hm, hx, hncolors, rfl⟩ := redBlack_fork.mp ht
            obtain ⟨hmcolor, hxcolor⟩ := hncolors hred
            simp only [hred, Color.weight_red, Nat.add_zero] at ht hsib huncle hupup
            by_cases hsides : gside = side
            · -- `node` is on the outer side already
              subst hsides
              simp only [bne_self_eq_false, Bool.false_eq_true, if_false]
              refine rotateOuter_spec hlaw (t := fork (!gside) n m x) (s := sibling) (u := uncle) ?_
                hupup hsib hsibcolor huncle hublack ht
              rw [Bool.not_not, fork_not gside p]
              exact arranged_frame.mp (arranged_frame.mp harr)
            · obtain rfl : gside = !side := by cases gside <;> cases side <;> simp_all
              simp only [show ((!side) != side) = true by cases side <;> rfl, if_true, runs_bind]
              have harr' : Arranged sums callback ps heap₀ seq mem (.frame (!side) g uncle upup)
                  (fork (!(!side)) p (fork (!side) n m x) sibling) := by
                rw [Bool.not_not]
                exact arranged_frame.mp harr
              refine (harr'.rotate hlaw).mono ?_
              intro _ mem₁ harr₁
              have hn₁ := harr₁.get_root
              have hp₁ := (arranged_frame.mpr harr₁).get_root
              simp only [Bool.not_not, root_fork, Context.ptr_frame] at hn₁ hp₁
              simp only [runs_debugAssert, runs_load, hn₁, hp₁, Option.some.injEq, exists_eq_left',
                Item.toNode_parent, Item.toNode_children, sides_self, beq_self_eq_true,
                implies_true, true_and]
              rw [rotated, Bool.not_not, fork_not] at harr₁
              set p' : Item P E S := { p with summary := _ } with hp'
              have hp'rb : (fork side p' m sibling).RedBlack k :=
                redBlack_fork.mpr ⟨k, hm, hsib, fun _ => ⟨hmcolor, hsibcolor⟩, by
                  simp [hp', hpred]⟩
              simpa only [runs_bind] using rotateOuter_spec hlaw (arranged_frame.mp harr₁) hupup hx
                hxcolor huncle hublack hp'rb

end Fixup

/-! ## The whole operation -/

/-- `insert` puts the new node somewhere into the sequence.  If the answers of the comparator along
the sequence are first all to the right and then all to the left, that is where they change. -/
theorem insertWith_spec {sums : Prop} (hlaw : sums → LawfulCallback callback)
    {limit : TreeM P E S ℕ} {mem : TreeMem P E S} {t : Tree P E S} {k : ℕ} {newNode : P}
    {n : Node P E S} (hrep : Represents mem .top t) (hrb : t.RedBlack k)
    (hsum : sums → t.Summed callback) (hlimit : Allows limit t.height t.ptrs)
    (hn : mem.heap.get newNode = some n) (hfresh : newNode ∉ t.ptrs)
    (hsummary : sums → n.summary = callback.elementToSummary n.element) :
    Runs (insertWith limit debug callback newNode) mem fun _ mem' =>
      ∃ pre post, t.seq = pre ++ post ∧
        Linked sums callback mem' (pre ++ (newNode, n.element) :: post) ∧
        (t.seq.Pairwise (fun a b =>
            goesRight callback n.element b.2 → goesRight callback n.element a.2) →
          (∀ x ∈ pre, goesRight callback n.element x.2 = true) ∧
            ∀ x ∈ post, goesRight callback n.element x.2 = false) ∧
        Heap.AgreeOff (newNode :: t.ptrs) mem.heap mem'.heap := by
  set n₁ : Node P E S := { n with color := .red, children := fun _ => none } with hn₁
  simp only [insertWith, runs_bind, runs_modifyNode, hn, Option.some.injEq,
    exists_eq_left', runs_get]
  rw [← hn₁]
  set mem₁ : TreeMem P E S := { mem with heap := mem.heap.set newNode n₁ } with hmem₁
  have hagree₁ : Heap.AgreeOff [newNode] mem.heap mem₁.heap :=
    Heap.AgreeOff.set _ (List.mem_singleton_self _) _
  have hrep₁ : Represents mem₁ .top t := hrep.mono_heap rfl hagree₁ fun p hp => by
      rwa [List.mem_singleton.mp hp]
  have hget₁ : mem₁.heap.get newNode = some n₁ := by simp [hmem₁]
  rw [show mem.tree = t.root by simpa [Context.rootFor] using hrep.tree_eq]
  cases hroot : t.root with
  | some root =>
      simp only [runs_bind]
      refine (hlimit mem₁ hrep₁.live).mono ?_
      rintro bound _ ⟨hbound, rfl⟩
      refine (descend_spec hlaw rfl _ hbound hroot hrep₁ hget₁ hfresh trivial trivial hrb
        (fun _ => rfl) fun hs => ⟨trivial, hsum hs⟩).mono ?_
      rintro r mem₂ ⟨side, item, sibling, up, rfl, hrep₂, hsearched, hseq, hdepth, hctx, hctxsum,
        hagree₂⟩
      set c := Context.frame side item sibling up with hc
      set leaf : Tree P E S := node ⟨newNode, n₁.color, n₁.summary, n₁.element⟩ nil nil with hleaf
      simp only [Context.pre, Context.post, List.nil_append, List.append_nil] at hseq
      have harr : Arranged sums callback (newNode :: t.ptrs) mem.heap
          (c.pre ++ (newNode, n.element) :: c.post) mem₂ c leaf := by
        refine ⟨hrep₂, ?_, ?_, ?_, ?_⟩
        · simp [c.seq_fill, hleaf, hn₁, Item.entry]
        · intro hs
          have := hlaw hs
          refine Context.summed_fill.mpr ⟨?_, ?_⟩
          · simpa [hleaf, total, LawfulCallback.zero_add, LawfulCallback.add_zero, hn₁,
              ← hsummary hs] using hctxsum hs
          · simp [hleaf, Summed, total, LawfulCallback.zero_add, LawfulCallback.add_zero, hn₁,
              hsummary hs]
        · intro p hp
          rw [(c.ptrs_fill_perm _).mem_iff, Context.ptrs, hseq] at hp
          simpa [hleaf, ptrs, or_comm] using hp
        · exact (hagree₁.mono (by simp)).trans hagree₂
      have hlive : ∀ p ∈ t.ptrs, (mem₂.heap.get p).isSome := by
        intro p hp
        refine harr.live p ?_
        rw [(c.ptrs_fill_perm _).mem_iff, Context.ptrs, hseq]
        exact List.mem_append_left _ hp
      refine (hlimit mem₂ hlive).mono ?_
      rintro bound _ ⟨hbound, rfl⟩
      refine (insertFixup_spec hlaw _ ?_ rfl rfl harr hctx ?_).mono ?_
      · simp only [hc, Context.depth] at hdepth
        omega
      · exact ⟨0, rfl, rfl, by simp, rfl⟩
      · rintro _ mem' ⟨hlinked', hagree'⟩
        refine ⟨c.pre, c.post, hseq.symm, hlinked', fun hmono => ?_, hagree'⟩
        exact Context.split_of_searched (f := goesRight callback n.element) hsearched
          (by rwa [hseq])
  | none =>
      obtain rfl := root_eq_none.mp hroot
      simp only [runs_bind, runs_modify, runs_modifyNode, hget₁, Option.some.injEq, exists_eq_left']
      have hget₂ : ∀ n', (mem₁.heap.set newNode n').get newNode = some n' := by simp
      refine ⟨[], [], rfl, ⟨node ⟨newNode, .red, n.summary, n.element⟩ nil nil, 0, ?_, ?_, ?_, ?_⟩,
        by simp, hagree₁.trans (Heap.AgreeOff.set _ (List.mem_singleton_self _) _)⟩
      · refine ⟨rfl, by simp [Context.cells], ?_, by simp⟩
        have hsides : sides false (none : Option P) none = fun _ => none := by
          funext s; simp [sides]
        simp [cells, Item.toNode, hsides, hn₁]
      · exact ⟨0, rfl, rfl, by simp, rfl⟩
      · intro hs
        have := hlaw hs
        simp [Summed, total, LawfulCallback.zero_add, LawfulCallback.add_zero, hsummary hs]
      · simp [Item.entry]

theorem insert_spec {sums : Prop} (hlaw : sums → LawfulCallback callback)
    {mem : TreeMem P E S} {seq : List (P × E)} {newNode : P} {n : Node P E S}
    (hlinked : Linked sums callback mem seq)
    (hn : mem.heap.get newNode = some n) (hfresh : newNode ∉ seq.map Prod.fst)
    (hsummary : sums → n.summary = callback.elementToSummary n.element) :
    Runs (Node.insert debug callback newNode) mem fun _ mem' => ∃ pre post, seq = pre ++ post ∧
      Linked sums callback mem' (pre ++ (newNode, n.element) :: post) ∧
      (seq.Pairwise (fun a b => goesRight callback n.element b.2 →
        goesRight callback n.element a.2) →
        (∀ x ∈ pre, goesRight callback n.element x.2 = true) ∧
          ∀ x ∈ post, goesRight callback n.element x.2 = false) ∧
      Heap.AgreeOff (newNode :: seq.map Prod.fst) mem.heap mem'.heap := by
  obtain ⟨t, k, hrep, hrb, hsum, rfl⟩ := hlinked
  unfold Node.insert
  exact insertWith_spec hlaw hrep hrb hsum hrep.allows_fuel hn hfresh hsummary

end Interlock.RbTree
