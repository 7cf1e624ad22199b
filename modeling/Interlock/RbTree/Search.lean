import Interlock.RbTree.Rotate
import Interlock.RbTree.Limit

/-!
# Queries

What the read-only functions return is said twice.  On trees it is a function of the tree and of the
place of the node in it, under any limit that allows loops along the paths of the tree.  On linked
sequences, neighbours are neighbours in the sequence, `lower_bound` finds the first entry that is
not `Greater`, and `prefix_sum` adds up what comes before a node.
-/

namespace Interlock.RbTree

open Memory Node Interlock.RbTree.Tree

variable {P E S : Type}

/-! ## Ends and neighbours -/

/-- The address at one end of the in-order sequence. -/
def Tree.extreme (d : IsRightChild) : Tree P E S → Option P
  | nil => none
  | node item left right => some ((if d then right.extreme d else left.extreme d).getD item.ptr)

/-- The summary at the root. -/
def Tree.stored (callback : Callback E S) : Tree P E S → S
  | nil => callback.zeroSummary
  | node item _ _ => item.summary

/-- What the search for a lower bound returns, `next` being what follows the tree. -/
def Tree.lowerBound (cmp : E → Ordering) (next : Option P) : Tree P E S → Option P
  | nil => next
  | node item left right =>
      if cmp item.element = .gt then right.lowerBound cmp next
      else left.lowerBound cmp (some item.ptr)

/-- Add to `sum` what the ancestors of the hole and the subtrees to the left of the path contribute,
as far as their summaries tell. -/
def Context.addTo (callback : Callback E S) (sum : S) : Context P E S → S
  | top => sum
  | frame false _ _ up => up.addTo callback sum
  | frame true item sibling up => up.addTo callback
      (callback.addAssignSummary (sibling.addTo callback sum)
        (callback.elementToSummary item.element))

/-- The nearest ancestor of the hole that has it below its child on side `d`. -/
def Context.neighbor (d : IsRightChild) : Context P E S → Option P
  | top => none
  | frame side item _ up => if side = d then some item.ptr else up.neighbor d

theorem Tree.extreme_true (t : Tree P E S) : t.extreme true = t.seq.getLast?.map Prod.fst := by
  induction t with
  | nil => rfl
  | node item left right _ ihr =>
      simp only [extreme, if_true, ihr, seq_node, List.getLast?_append, List.getLast?_cons,
        Option.some_or]
      cases right.seq.getLast? <;> rfl

theorem Tree.extreme_false (t : Tree P E S) : t.extreme false = t.seq.head?.map Prod.fst := by
  induction t with
  | nil => rfl
  | node item left right ihl _ =>
      simp only [extreme, Bool.false_eq_true, if_false, ihl, seq_node, List.head?_append,
        List.head?_cons]
      cases left.seq.head? <;> rfl

theorem Context.neighbor_true (c : Context P E S) :
    c.neighbor true = c.pre.getLast?.map Prod.fst := by
  induction c with
  | top => rfl
  | frame side item sibling up ih => cases side <;> simp [neighbor, pre, ih]

theorem Context.neighbor_false (c : Context P E S) :
    c.neighbor false = c.post.head?.map Prod.fst := by
  induction c with
  | top => rfl
  | frame side item sibling up ih => cases side <;> simp [neighbor, post, ih]

variable [DecidableEq P] {callback : Callback E S} {mem : TreeMem P E S}

theorem extremum_spec {d : IsRightChild} (fuel : ℕ) :
    ∀ {t : Tree P E S} {p : P} {parent : Option P}, t.height ≤ fuel → t.root = some p →
      mem.heap.Holds (t.cells parent) →
      Runs (extremum d fuel p) mem fun q mem' => t.extreme d = some q ∧ mem' = mem := by
  induction fuel with
  | zero =>
      intro t p parent hheight hroot
      cases t with
      | nil => simp at hroot
      | node item left right => simp [height] at hheight
  | succ fuel ih =>
      intro t p parent hheight hroot hold
      obtain ⟨i, a, b, rfl, rfl⟩ := exists_fork_of_root (fun _ => d) hroot
      obtain ⟨hi, ha, -⟩ := holds_cells_fork.mp hold
      have hextreme : (fork d i a b).extreme d = some ((a.extreme d).getD i.ptr) := by
        cases d <;> rfl
      rw [height_fork] at hheight
      simp only [extremum, runs_bind, runs_load, hi, Option.some.injEq, exists_eq_left',
        Item.toNode_children, sides_self, hextreme]
      cases haroot : a.root with
      | none =>
          obtain rfl := root_eq_none.mp haroot
          simp [extreme]
      | some child =>
          refine (ih (by omega) haroot ha).mono ?_
          rintro q mem' ⟨hq, rfl⟩
          simp [hq]

theorem climb_spec {d : IsRightChild} (fuel : ℕ) :
    ∀ {c : Context P E S} {e : IsRightChild} {i : Item P E S} {a b : Tree P E S},
      c.depth < fuel → Represents mem c (fork e i a b) →
      Runs (climb d fuel i.ptr) mem fun r mem' => r = c.neighbor d ∧ mem' = mem := by
  induction fuel with
  | zero => intro _ _ _ _ _ hdepth; omega
  | succ fuel ih =>
      intro c e i a b hdepth hrep
      simp only [climb, runs_bind, runs_load, hrep.get_root, Option.some.injEq, exists_eq_left',
        Item.toNode_parent]
      cases c with
      | top => simp [Context.neighbor]
      | frame side item sibling up =>
          have hitem := hrep.get_parent
          have hsibling : sibling.root ≠ some i.ptr := fun heq =>
            hrep.root_not_mem (Context.mem_ptrs_frame.mpr
              (Or.inr (Or.inl (sibling.root_subset_ptrs _ (by simp [heq])))))
          simp only [root_fork] at hitem
          simp only [Context.ptr_frame, runs_bind, runs_load, hitem, Option.some.injEq,
            exists_eq_left', Item.toNode_children, Context.neighbor]
          by_cases hside : side = d
          · subst hside
            simp
          · obtain rfl : d = !side := by cases d <;> cases side <;> simp_all
            simp only [sides_not, hsibling, if_false, hside]
            refine ih ?_ (represents_frame.mp hrep)
            simp only [Context.depth] at hdepth
            omega

variable {limit : TreeM P E S ℕ}

/-- A neighbour is an end of the subtree on that side, or else an ancestor. -/
theorem neighborWith_spec {d : IsRightChild} {c : Context P E S} {i : Item P E S}
    {a b : Tree P E S} (hrep : Represents mem c (fork (!d) i a b))
    (hlimit : Allows limit (c.fill (fork (!d) i a b)).height (c.fill (fork (!d) i a b)).ptrs) :
    Runs (neighborWith limit d i.ptr) mem fun r mem' =>
      r = (a.extreme d).or (c.neighbor d) ∧ mem' = mem := by
  obtain ⟨hi, ha, -⟩ := holds_cells_fork.mp hrep.focus
  have hdown := c.depth_add_height_le (fork (!d) i a b)
  rw [height_fork] at hdown
  simp only [neighborWith, runs_bind, runs_load, hi, Option.some.injEq, exists_eq_left',
    Item.toNode_children, sides_self]
  cases hroot : a.root with
  | none =>
      obtain rfl := root_eq_none.mp hroot
      simp only [runs_bind, extreme, Option.none_or]
      refine (hlimit mem hrep.live).mono ?_
      rintro bound mem₀ ⟨hbound, hmem⟩
      rw [hmem]
      exact climb_spec _ (by omega) hrep
  | some child =>
      simp only [runs_bind]
      refine (hlimit mem hrep.live).mono ?_
      rintro bound mem₀ ⟨hbound, hmem⟩
      rw [hmem]
      refine (extremum_spec _ (by omega) hroot ha).mono ?_
      rintro q mem' ⟨hq, rfl⟩
      simp [hq]

/-- `successor` returns the next entry of the sequence. -/
theorem successor_focus {c : Context P E S} {i : Item P E S} {a b : Tree P E S}
    (hrep : Represents mem c (node i a b)) : Runs (successor i.ptr) mem fun r mem' =>
      r = (b.seq ++ c.post).head?.map Prod.fst ∧ mem' = mem := by
  rw [Node.successor, List.head?_append, Option.map_or, ← Tree.extreme_false, ← c.neighbor_false]
  exact neighborWith_spec (d := false) (a := b) (b := a) hrep hrep.allows_fuel

/-- `predecessor` returns the previous entry of the sequence. -/
theorem predecessor_focus {c : Context P E S} {i : Item P E S} {a b : Tree P E S}
    (hrep : Represents mem c (node i a b)) : Runs (predecessor i.ptr) mem fun r mem' =>
      r = (c.pre ++ a.seq).getLast?.map Prod.fst ∧ mem' = mem := by
  rw [Node.predecessor, List.getLast?_append, Option.map_or, ← Tree.extreme_true, ← c.neighbor_true]
  exact neighborWith_spec (d := true) (a := a) (b := b) hrep hrep.allows_fuel

/-! ## Searching -/

/-- The loop of `lower_bound`, whatever the answers are. -/
theorem lowerBoundFromWith_spec {cmp : E → Ordering} (fuel : ℕ) :
    ∀ {c : Context P E S} {t : Tree P E S} {p : P}, t.height ≤ fuel → t.root = some p →
      Represents mem c t → Allows limit (c.fill t).height (c.fill t).ptrs →
      Runs (lowerBoundFromWith limit cmp fuel p) mem fun r mem' =>
        r = t.lowerBound cmp (c.neighbor false) ∧ mem' = mem := by
  induction fuel with
  | zero =>
      intro c t p hheight hroot
      cases t with
      | nil => simp at hroot
      | node item left right => simp [height] at hheight
  | succ fuel ih =>
      intro c t p hheight hroot hrep hlimit
      cases t with
      | nil => simp at hroot
      | node i a b =>
          obtain rfl : i.ptr = p := by simpa using hroot
          have hi := hrep.get_root (d := false)
          simp only [height] at hheight
          simp only [lowerBoundFromWith, runs_bind, runs_load, hi, Option.some.injEq,
            exists_eq_left', Item.toNode_element, Tree.lowerBound]
          by_cases hcmp : cmp i.element = .gt
          · -- The boundary is to the right
            simp only [hcmp, if_true, runs_bind, runs_load, hi, Option.some.injEq, exists_eq_left',
              Item.toNode_children, sides_true]
            cases hroot : b.root with
            | none =>
                obtain rfl := root_eq_none.mp hroot
                exact neighborWith_spec (d := false) (a := nil) (b := a) hrep hlimit
            | some child =>
                exact ih (c := .frame true i a c) (by omega) hroot
                  (represents_frame.mpr hrep) hlimit
          · -- The boundary is here or to the left
            have hleft : ∀ child, a.root = some child →
                Runs (lowerBoundFromWith limit cmp fuel child) mem fun r mem' =>
                  r = a.lowerBound cmp (some i.ptr) ∧ mem' = mem := fun child hroot =>
              ih (c := .frame false i b c) (by omega) hroot (represents_frame.mpr hrep) hlimit
            simp only [hcmp, if_false]
            cases hc : cmp i.element with
            | gt => exact absurd hc hcmp
            | lt | eq =>
                simp only [runs_bind, runs_load, hi, Option.some.injEq, exists_eq_left',
                  Item.toNode_children, sides_self]
                cases hroot : a.root with
                | none =>
                    obtain rfl := root_eq_none.mp hroot
                    exact runs_pure.mpr ⟨rfl, rfl⟩
                | some child => exact hleft child hroot

theorem lowerBoundWith_spec {cmp : E → Ordering} {t : Tree P E S} (hrep : Represents mem .top t)
    (hlimit : Allows limit t.height t.ptrs) :
    Runs (lowerBoundWith limit cmp) mem fun r mem' =>
      r = t.lowerBound cmp none ∧ mem' = mem := by
  simp only [lowerBoundWith, runs_bind, runs_get]
  rw [show mem.tree = t.root from hrep.tree_eq]
  cases hroot : t.root with
  | none =>
      obtain rfl := root_eq_none.mp hroot
      simp [Tree.lowerBound]
  | some root =>
      simp only [runs_bind]
      refine (hlimit mem hrep.live).mono ?_
      rintro bound mem₀ ⟨hbound, hmem⟩
      rw [hmem]
      exact lowerBoundFromWith_spec _ hbound hroot hrep hlimit

omit [DecidableEq P] in
/-- If the answers change only once along the sequence, the search finds where. -/
theorem Tree.lowerBound_eq {cmp : E → Ordering} (t : Tree P E S) (next : Option P)
    (hmono : t.seq.Pairwise fun a b => cmp b.2 = .gt → cmp a.2 = .gt) :
    t.lowerBound cmp next = ((t.seq.find? fun x => cmp x.2 ≠ .gt).map Prod.fst).or next := by
  induction t generalizing next with
  | nil => rfl
  | node i a b iha ihb =>
      simp only [seq_node, List.pairwise_append, List.pairwise_cons, List.mem_cons] at hmono
      obtain ⟨hamono, ⟨-, hbmono⟩, hcross⟩ := hmono
      rw [seq_node, List.find?_append, Tree.lowerBound]
      by_cases hcmp : cmp i.element = .gt
      · have hskip : a.seq.find? (fun x => cmp x.2 ≠ .gt) = none := by
          refine List.find?_eq_none.mpr fun x hx => ?_
          simp [hcross x hx i.entry (Or.inl rfl) hcmp]
        rw [if_pos hcmp, ihb _ hbmono, hskip, Option.none_or,
          List.find?_cons_of_neg (by simp [Item.entry, hcmp])]
      · rw [if_neg hcmp, iha _ hamono, List.find?_cons_of_pos (by simp [Item.entry, hcmp])]
        cases a.seq.find? (fun x => cmp x.2 ≠ .gt) <;> rfl

omit [DecidableEq P] in
/-- Whatever the answers are, the search finds nothing that is `Greater`. -/
theorem Tree.mem_of_lowerBound {cmp : E → Ordering} (t : Tree P E S) {next : Option P} {p : P}
    (h : t.lowerBound cmp next = some p) :
    (∃ x ∈ t.seq, x.1 = p ∧ cmp x.2 ≠ .gt) ∨ next = some p := by
  induction t generalizing next with
  | nil => exact Or.inr h
  | node i a b iha ihb =>
      rw [Tree.lowerBound] at h
      simp only [seq_node, List.mem_append, List.mem_cons]
      split at h
      · rcases ihb h with ⟨x, hx, hxp⟩ | hnext
        · exact Or.inl ⟨x, Or.inr (Or.inr hx), hxp⟩
        · exact Or.inr hnext
      · next hcmp =>
          rcases iha h with ⟨x, hx, hxp⟩ | hnext
          · exact Or.inl ⟨x, Or.inl hx, hxp⟩
          · exact Or.inl ⟨i.entry, Or.inr (Or.inl rfl), Option.some.inj hnext, hcmp⟩

/-! ## Queries on a linked sequence -/

section Linked
variable {sums : Prop} {seq pre post : List (P × E)} {x : P × E}

/-- A linked entry, with its node in focus. -/
theorem Linked.exists_focus (h : Linked sums callback mem (pre ++ x :: post)) :
    ∃ c i a b, Represents mem c (node i a b) ∧ i.entry = x ∧ c.pre ++ a.seq = pre ∧
      b.seq ++ c.post = post ∧ (sums → (c.fill (node i a b)).Summed callback) := by
  obtain ⟨t, k, hrep, -, hsum, hseq⟩ := h
  obtain ⟨c, i, a, b, hfill, hi, hpre, hpost⟩ := Context.exists_focus .top hseq
  simp only [Context.fill_top, Context.pre, Context.post, List.nil_append, List.append_nil]
    at hfill hpre hpost
  subst hfill
  exact ⟨c, i, a, b, represents_fill.mpr hrep, hi, hpre, hpost, hsum⟩

theorem Linked.nodup (h : Linked sums callback mem seq) : (seq.map Prod.fst).Nodup := by
  obtain ⟨t, k, hrep, -, -, rfl⟩ := h
  exact hrep.nodup

/-- Every linked entry has its cell, with the element of the sequence. -/
theorem Linked.get (h : Linked sums callback mem seq) (hx : x ∈ seq) :
    ∃ n, mem.heap.get x.1 = some n ∧ n.element = x.2 := by
  obtain ⟨pre, post, rfl⟩ := List.append_of_mem hx
  obtain ⟨c, i, a, b, hrep, rfl, -, -, -⟩ := h.exists_focus
  exact ⟨_, hrep.get_root (d := false), rfl⟩

theorem Linked.length_le_size (h : Linked sums callback mem seq) : seq.length ≤ mem.heap.size := by
  have hsub : seq.map Prod.fst ⊆ mem.heap.cells.map Prod.fst := by
    intro p hp
    obtain ⟨x, hx, rfl⟩ := List.mem_map.mp hp
    obtain ⟨n, hn, -⟩ := h.get hx
    exact Heap.mem_keys_of_get hn
  simpa [Heap.size] using (List.subperm_of_subset h.nodup hsub).length_le

theorem Linked.tree_eq_none (h : Linked sums callback mem seq) : mem.tree = none ↔ seq = [] := by
  obtain ⟨t, k, hrep, -, -, rfl⟩ := h
  rw [hrep.tree_eq]
  cases t <;> simp [Context.rootFor]

theorem Linked.predecessor (h : Linked sums callback mem (pre ++ x :: post)) :
    Runs (predecessor x.1) mem fun r mem' =>
      r = pre.getLast?.map Prod.fst ∧ mem' = mem := by
  obtain ⟨c, i, a, b, hrep, rfl, rfl, -, -⟩ := h.exists_focus
  exact predecessor_focus hrep

theorem Linked.successor (h : Linked sums callback mem (pre ++ x :: post)) :
    Runs (successor x.1) mem fun r mem' => r = post.head?.map Prod.fst ∧ mem' = mem := by
  obtain ⟨c, i, a, b, hrep, rfl, -, rfl, -⟩ := h.exists_focus
  exact successor_focus hrep

theorem Linked.max {root : P} (h : Linked sums callback mem seq) (hroot : mem.tree = some root) :
    Runs (Node.max root) mem fun r mem' =>
      some r = seq.getLast?.map Prod.fst ∧ mem' = mem := by
  obtain ⟨t, k, hrep, -, -, rfl⟩ := h
  rw [hrep.tree_eq] at hroot
  refine (hrep.allows_fuel mem hrep.live).bind ?_
  rintro bound mem₀ ⟨hbound, hmem⟩
  rw [hmem]
  refine (extremum_spec _ hbound hroot hrep.focus).mono ?_
  rintro q mem' ⟨hq, rfl⟩
  exact ⟨by rw [← Tree.extreme_true]; exact hq.symm, rfl⟩

theorem Linked.min {root : P} (h : Linked sums callback mem seq) (hroot : mem.tree = some root) :
    Runs (Node.min root) mem fun r mem' => some r = seq.head?.map Prod.fst ∧ mem' = mem := by
  obtain ⟨t, k, hrep, -, -, rfl⟩ := h
  rw [hrep.tree_eq] at hroot
  refine (hrep.allows_fuel mem hrep.live).bind ?_
  rintro bound mem₀ ⟨hbound, hmem⟩
  rw [hmem]
  refine (extremum_spec _ hbound hroot hrep.focus).mono ?_
  rintro q mem' ⟨hq, rfl⟩
  exact ⟨by rw [← Tree.extreme_false]; exact hq.symm, rfl⟩

/-- `lower_bound` finds the first entry whose answer is not `Greater`, if the answers change only
once along the sequence. -/
theorem Linked.lowerBound {cmp : E → Ordering} (h : Linked sums callback mem seq)
    (hmono : seq.Pairwise fun a b => cmp b.2 = .gt → cmp a.2 = .gt) :
    Runs (lowerBound cmp) mem fun r mem' =>
      r = (seq.find? fun x => cmp x.2 ≠ .gt).map Prod.fst ∧ mem' = mem := by
  obtain ⟨t, k, hrep, -, -, rfl⟩ := h
  unfold Node.lowerBound
  have hrun : Runs (lowerBoundWith fuel cmp) mem fun r mem' =>
      r = t.lowerBound cmp none ∧ mem' = mem := lowerBoundWith_spec hrep hrep.allows_fuel
  rwa [t.lowerBound_eq none hmono, Option.or_none] at hrun

/-- Whatever the answers are, `lower_bound` returns. -/
theorem Linked.lowerBound_mem {cmp : E → Ordering} (h : Linked sums callback mem seq) :
    Runs (Node.lowerBound cmp) mem fun r mem' =>
      (∀ p, r = some p → ∃ x ∈ seq, x.1 = p ∧ cmp x.2 ≠ .gt) ∧ mem' = mem := by
  obtain ⟨t, k, hrep, -, -, rfl⟩ := h
  unfold Node.lowerBound
  have hrun : Runs (lowerBoundWith fuel cmp) mem fun r mem' =>
      r = t.lowerBound cmp none ∧ mem' = mem := lowerBoundWith_spec hrep hrep.allows_fuel
  refine hrun.mono ?_
  rintro r mem' ⟨rfl, rfl⟩
  refine ⟨fun p hp => (t.mem_of_lowerBound hp).resolve_right ?_, rfl⟩
  intro hnone
  cases hnone

end Linked

/-! ## Rank sums -/

/-- The sum of `elementToSummary` over a sequence. -/
def sumSeq (callback : Callback E S) (seq : List (P × E)) : S :=
  seq.foldr (fun x sum => callback.addAssignSummary (callback.elementToSummary x.2) sum)
    callback.zeroSummary

section Sum
variable [LawfulCallback callback]

omit [DecidableEq P]

theorem sumSeq_append (xs ys : List (P × E)) : sumSeq callback (xs ++ ys) =
    callback.addAssignSummary (sumSeq callback xs) (sumSeq callback ys) := by
  induction xs with
  | nil => exact (LawfulCallback.zero_add _).symm
  | cons x xs ih =>
      simp only [sumSeq, List.cons_append, List.foldr_cons] at ih ⊢
      rw [ih]
      ac_rfl

theorem total_eq_sumSeq (t : Tree P E S) : t.total callback = sumSeq callback t.seq := by
  induction t with
  | nil => rfl
  | node item left right ihl ihr =>
      rw [total, ihl, ihr, seq_node, sumSeq_append]
      simp only [sumSeq, List.foldr_cons, Item.entry]
      ac_rfl

end Sum

omit [DecidableEq P] in
/-- Where the summaries are right, they add up what comes before the hole. -/
theorem Context.addTo_eq [LawfulCallback callback] {c : Context P E S} {hole : S}
    (hc : c.Summed callback hole) (sum : S) :
    c.addTo callback sum = callback.addAssignSummary sum (sumSeq callback c.pre) := by
  induction c generalizing hole sum with
  | top => exact (LawfulCallback.add_zero sum).symm
  | frame side item sibling up ih =>
      obtain ⟨-, hsib, hup⟩ := hc
      cases side with
      | false => exact ih hup sum
      | true =>
          rw [Context.addTo, ih hup, Tree.addTo_eq hsib, total_eq_sumSeq, Context.pre,
            sumSeq_append, sumSeq_append]
          simp only [sumSeq, List.foldr_cons, List.foldr_nil, LawfulCallback.add_zero, Item.entry]
          ac_rfl

theorem prefixSumFrom_spec (fuel : ℕ) :
    ∀ {c : Context P E S} {d : IsRightChild} {i : Item P E S} {a b : Tree P E S} {summary : S},
      c.depth < fuel → Represents mem c (fork d i a b) →
      Runs (prefixSumFrom callback fuel i.ptr summary) mem fun r mem' =>
        r = c.addTo callback summary ∧ mem' = mem := by
  induction fuel with
  | zero => intro _ _ _ _ _ _ hdepth; omega
  | succ fuel ih =>
      intro c d i a b summary hdepth hrep
      simp only [prefixSumFrom, runs_bind, runs_load, hrep.get_root, Option.some.injEq,
        exists_eq_left', Item.toNode_parent]
      cases c with
      | top =>
          simp only [Context.ptr_top, runs_pure, and_true]
          rfl
      | frame side item sibling up =>
          have hitem := hrep.get_parent
          have hsibling : sibling.root ≠ some i.ptr := fun heq =>
            hrep.root_not_mem (Context.mem_ptrs_frame.mpr
              (Or.inr (Or.inl (sibling.root_subset_ptrs _ (by simp [heq])))))
          have hup := represents_frame.mp hrep
          have hsibcells := (holds_cells_fork.mp hup.focus).2.2
          simp only [root_fork] at hitem
          simp only [Context.depth] at hdepth
          simp only [Context.ptr_frame, runs_bind, runs_load, hitem, Option.some.injEq,
            exists_eq_left', Item.toNode_children]
          cases side with
          | true =>
              simp only [sides_self, if_true, runs_bind, runs_load, hitem, Option.some.injEq,
                exists_eq_left']
              refine (addSummaryOf_spec hsibcells _).mpr ?_
              simp only [hitem, Option.some.injEq, exists_eq_left', Item.toNode_element]
              exact ih (by omega) hup
          | false =>
              simp only [sides_true, hsibling, if_false]
              rw [show (Context.frame false item sibling up).addTo callback summary =
                up.addTo callback summary from rfl]
              exact ih (by omega) hup

theorem prefixSumWith_spec {c : Context P E S} {i : Item P E S} {a b : Tree P E S}
    (hrep : Represents mem c (node i a b))
    (hlimit : Allows limit (c.fill (node i a b)).height (c.fill (node i a b)).ptrs) :
    Runs (prefixSumWith limit callback (some i.ptr)) mem fun r mem' =>
      r = c.addTo callback (a.stored callback) ∧ mem' = mem := by
  have hdown := c.depth_add_height_le (node i a b)
  simp only [height] at hdown
  obtain ⟨hi, ha, -⟩ := (holds_cells_fork (d := false)).mp hrep.focus
  have hfrom : ∀ summary, Runs (limit >>= fun bound => prefixSumFrom callback bound i.ptr summary)
      mem fun r mem' => r = c.addTo callback summary ∧ mem' = mem := by
    intro summary
    refine (hlimit mem hrep.live).bind ?_
    rintro bound mem₀ ⟨hbound, hmem⟩
    rw [hmem]
    exact prefixSumFrom_spec (d := false) _ (by omega) hrep
  simp only [prefixSumWith, runs_bind, runs_load, hi, Option.some.injEq, exists_eq_left',
    Item.toNode_children, sides_self]
  cases a with
  | nil =>
      simp only [root_nil, pure_bind]
      exact hfrom callback.zeroSummary
  | node j left right =>
      have hj := (holds_cells_fork (d := false)).mp ha
      simp only [root_node, runs_bind, runs_load, hj.1, Option.some.injEq, exists_eq_left',
        runs_pure, Item.toNode_summary]
      exact runs_bind.mp (hfrom j.summary)

theorem prefixSumWith_none {t : Tree P E S} (hrep : Represents mem .top t) :
    Runs (prefixSumWith limit callback none) mem fun r mem' =>
      r = t.stored callback ∧ mem' = mem := by
  simp only [prefixSumWith, runs_bind, runs_get]
  rw [show mem.tree = t.root from hrep.tree_eq]
  cases t with
  | nil => exact runs_pure.mpr ⟨rfl, rfl⟩
  | node i a b =>
      have hi := hrep.get_root (d := false)
      simp only [root_node, runs_bind, runs_load, hi, Option.some.injEq, exists_eq_left',
        runs_pure, Item.toNode_summary]
      exact ⟨rfl, trivial⟩

omit [DecidableEq P] in
theorem Tree.stored_eq {t : Tree P E S} (ht : t.Summed callback) :
    t.stored callback = t.total callback := by
  cases t with
  | nil => rfl
  | node i a b => exact ht.1

/-- `prefix_sum` of a node adds up what precedes it. -/
theorem Linked.prefixSum [LawfulCallback callback] {pre post : List (P × E)} {x : P × E}
    (h : Linked True callback mem (pre ++ x :: post)) :
    Runs (prefixSum callback (some x.1)) mem fun r mem' =>
      r = sumSeq callback pre ∧ mem' = mem := by
  obtain ⟨c, i, a, b, hrep, rfl, rfl, -, hsum⟩ := h.exists_focus
  obtain ⟨hcsum, -, hasum, -⟩ := Context.summed_fill.mp (hsum trivial)
  rw [Node.prefixSum, sumSeq_append, LawfulCallback.add_comm, ← total_eq_sumSeq a,
    ← Tree.stored_eq hasum, ← Context.addTo_eq hcsum]
  exact prefixSumWith_spec hrep hrep.allows_fuel

theorem Linked.prefixSum_none [LawfulCallback callback] {seq : List (P × E)}
    (h : Linked True callback mem seq) :
    Runs (Node.prefixSum callback none) mem fun r mem' =>
      r = sumSeq callback seq ∧ mem' = mem := by
  obtain ⟨t, k, hrep, -, hsum, rfl⟩ := h
  rw [Node.prefixSum, ← total_eq_sumSeq, ← Tree.stored_eq (hsum trivial)]
  exact prefixSumWith_none hrep

end Interlock.RbTree
