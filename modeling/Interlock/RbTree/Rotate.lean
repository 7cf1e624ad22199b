import Interlock.RbTree.Layout

/-!
# Rotation

`rotate_spec` is the only place where the pointer writes of `Node::rotate` are executed.  In terms
of trees a rotation replaces `fork (!d) i (fork d j m x) y` by `fork d j (fork (!d) i m y) x`: the
in-order sequence stays what it was, and so do the summaries of everything above.
-/

namespace Interlock.RbTree

open Memory Node Interlock.RbTree.Tree

variable {P E S : Type}

/-- Add the summary at the root, if there is one. -/
def Tree.addTo (callback : Callback E S) (sum : S) : Tree P E S → S
  | nil => sum
  | node item _ _ => callback.addAssignSummary sum item.summary

/-- The tree after rotating `i` to side `d`; its new root is `j`. -/
def Tree.rotated (callback : Callback E S) (d : IsRightChild) (i j : Item P E S)
    (m x y : Tree P E S) : Tree P E S :=
  let difference := callback.subAssignSummary i.summary j.summary
  fork d { j with summary := i.summary }
    (fork (!d) { i with summary := m.addTo callback difference } m y) x

section Rotated
variable {callback : Callback E S} {d : IsRightChild} {i j : Item P E S} {m x y : Tree P E S}

/-- A rotation does not change the in-order sequence. -/
theorem Tree.seq_rotated (callback : Callback E S) (d : IsRightChild) (i j : Item P E S)
    (m x y : Tree P E S) :
    (rotated callback d i j m x y).seq = (fork (!d) i (fork d j m x) y).seq := by
  cases d <;> simp [rotated, fork, Item.entry]

theorem Tree.ptrs_rotated :
    (rotated callback d i j m x y).ptrs = (fork (!d) i (fork d j m x) y).ptrs := by
  rw [ptrs, ptrs, seq_rotated]

variable [LawfulCallback callback]

theorem Tree.addTo_eq (hm : m.Summed callback) (sum : S) :
    m.addTo callback sum = callback.addAssignSummary sum (m.total callback) := by
  cases m with
  | nil => exact (LawfulCallback.add_zero sum).symm
  | node item left right => rw [addTo, hm.1]

theorem Tree.total_rotated : (rotated callback d i j m x y).total callback =
    (fork (!d) i (fork d j m x) y).total callback := by
  simp only [rotated, total_fork]
  ac_rfl

/-- The summaries that `rotate` computes by differences are again subtree totals. -/
theorem Tree.summed_rotated (h : (fork (!d) i (fork d j m x) y).Summed callback) :
    (rotated callback d i j m x y).Summed callback := by
  obtain ⟨hi, hfork, hy⟩ := summed_fork.mp h
  obtain ⟨hj, hm, hx⟩ := summed_fork.mp hfork
  rw [total_fork, ← hj] at hi
  -- `i.summary - j.summary` is what hangs on the other side, with `i` itself.
  have hdiff : callback.subAssignSummary i.summary j.summary =
      callback.addAssignSummary (callback.elementToSummary i.element) (y.total callback) := by
    rw [hi, show ∀ a b c, callback.addAssignSummary (callback.addAssignSummary a b) c =
      callback.addAssignSummary (callback.addAssignSummary b c) a from fun a b c => by ac_rfl,
      LawfulCallback.add_sub_cancel]
  refine summed_fork.mpr ⟨?_, summed_fork.mpr ⟨?_, hm, hy⟩, hx⟩
  · show i.summary = _
    rw [hi, hj, total_fork]
    ac_rfl
  · show m.addTo callback _ = _
    rw [addTo_eq hm, hdiff]
    ac_rfl

end Rotated

variable [DecidableEq P] {debug : Bool} {callback : Callback E S}

theorem addSummaryOf_spec {mem : TreeMem P E S} {t : Tree P E S} {parent : Option P}
    (hold : mem.heap.Holds (t.cells parent)) (sum : S) {post : S → TreeMem P E S → Prop} :
    Runs (addSummaryOf callback t.root sum) mem post ↔ post (t.addTo callback sum) mem := by
  cases t with
  | nil => simp [addSummaryOf, addTo]
  | node item left right =>
      simp only [cells, Heap.holds_cons] at hold
      simp [addSummaryOf, hold.1, addTo]

theorem rotate_spec {mem : TreeMem P E S} {c : Context P E S}
    {d : IsRightChild} {i j : Item P E S} {m x y : Tree P E S}
    (h : Represents mem c (fork (!d) i (fork d j m x) y)) :
    Runs (rotate debug callback i.ptr d) mem fun _ mem' =>
      Represents mem' c (rotated callback d i j m x y) ∧
        Heap.AgreeOff (c.fill (fork (!d) i (fork d j m x) y)).ptrs mem.heap mem'.heap := by
  obtain ⟨htree, hc, hf, hn⟩ := h
  obtain ⟨hi, hj', hy⟩ := holds_cells_fork.mp hf
  obtain ⟨hj, hm, hx⟩ := holds_cells_fork.mp hj'
  obtain ⟨hcn, hfn, hcf⟩ := Context.nodup_fill.mp hn
  obtain ⟨hij', hiy, hjn', hyn, hjy'⟩ := nodup_fork.mp hfn
  obtain ⟨hjm, hjx, hmn, hxn, hmx⟩ := nodup_fork.mp hjn'
  simp only [mem_ptrs_fork, not_or] at hij'
  obtain ⟨hij, him, hix⟩ := hij'
  simp only [root_fork] at hi hc htree
  have hic : i.ptr ∉ c.ptrs := fun hp => hcf hp (by simp)
  have hjc : j.ptr ∉ c.ptrs := fun hp => hcf hp (by simp)
  have hjy : j.ptr ∉ y.ptrs := hjy' (by simp)
  have hcm : ∀ p ∈ m.root.toList, p ∉ c.ptrs :=
    fun p hp hpc => hcf hpc (by simp [m.root_subset_ptrs p hp])
  have hmc : ∀ p ∈ c.ptr.toList, p ∉ m.ptrs :=
    fun p hp hpm => hcf (c.ptr_subset_ptrs p hp) (by simp [hpm])
  simp only [rotate, runs_bind, runs_load, hi, Option.some.injEq, exists_eq_left', runs_expect,
    Item.toNode_children, sides_self, hj, runs_modifyNode, Heap.get_set, hij, Ne.symm hij, if_true,
    if_false, setChild_eq, update_sides_self, Item.toNode_parent]
  -- `mid` moves below `node`
  refine (setParent_spec (some i.ptr) (?_ : Heap.Holds _ (m.cells (some j.ptr))) hmn).mono ?_
  · exact holds_cells_set (holds_cells_set (holds_cells_set (holds_cells_set hm _ him) _ hjm) _ hjm)
      _ him
  rintro _ mem₁ ⟨htree₁, hm₁, hagree₁⟩
  have hagree : Heap.AgreeOff (i.ptr :: j.ptr :: m.root.toList) mem.heap mem₁.heap := by
    intro q hq
    simp only [List.mem_cons, not_or] at hq
    rw [hagree₁ q hq.2.2]
    simp [Heap.get_set, hq.1, hq.2.1]
  have hi₁ := hagree₁ i.ptr fun hp => him (m.root_subset_ptrs _ hp)
  have hj₁ := hagree₁ j.ptr fun hp => hjm (m.root_subset_ptrs _ hp)
  simp only [Heap.get_set, hij, Ne.symm hij, if_true, if_false] at hi₁ hj₁
  have hc₁ : mem₁.heap.Holds (c.cells (some i.ptr)) :=
    Context.holds_cells_agree hagree hc (by simpa [hic, hjc] using hcm)
  simp only [hj₁, Option.some.injEq, exists_eq_left', childCell_spec hc₁ hic, runs_debugAssert,
    readSlot_spec (htree₁.trans htree) hc₁, beq_self_eq_true, implies_true, true_and]
  -- The slot of the subtree now holds `newRoot`
  refine (writeSlot_spec (some j.ptr) (htree₁.trans htree) hc₁ hcn).mono ?_
  rintro _ mem₂ ⟨htree₂, hc₂, hagree₂⟩
  have hi₂ := (hagree₂ i.ptr fun hp => hic (c.ptr_subset_ptrs _ hp)).trans hi₁
  have hj₂ := (hagree₂ j.ptr fun hp => hjc (c.ptr_subset_ptrs _ hp)).trans hj₁
  have hm₂ := holds_cells_agree hagree₂ hm₁ hmc
  simp only [hi₂, hj₂, Option.some.injEq, exists_eq_left', addSummaryOf_spec hm₂,
    Item.toNode_color, Item.toNode_summary, Item.toNode_element]
  have hpair : ∀ n n', Heap.AgreeOff [i.ptr, j.ptr] mem₂.heap
      ((mem₂.heap.set i.ptr n).set j.ptr n') := fun n n' =>
    (Heap.AgreeOff.set _ (by simp) n).set_right (by simp) n'
  have hall : Heap.AgreeOff (i.ptr :: j.ptr :: (m.root.toList ++ c.ptr.toList)) mem.heap
      mem₂.heap :=
    (hagree.mono (by simp +contextual)).trans (hagree₂.mono (by simp +contextual))
  have hyall : ∀ p ∈ i.ptr :: j.ptr :: (m.root.toList ++ c.ptr.toList), p ∉ y.ptrs := by
    simp only [List.forall_mem_cons, List.forall_mem_append]
    exact ⟨hiy, hjy, fun p hp => hjy' (by simp [m.root_subset_ptrs p hp]),
      fun p hp hpy => hcf (c.ptr_subset_ptrs p hp) (by simp [hpy])⟩
  have hxall : ∀ p ∈ i.ptr :: j.ptr :: (m.root.toList ++ c.ptr.toList), p ∉ x.ptrs := by
    simp only [List.forall_mem_cons, List.forall_mem_append]
    exact ⟨hix, hjx, fun p hp => hmx (m.root_subset_ptrs p hp),
      fun p hp hpx => hcf (c.ptr_subset_ptrs p hp) (by simp [hpx])⟩
  have hsub : ∀ p ∈ i.ptr :: j.ptr :: (m.root.toList ++ c.ptr.toList),
      p ∈ (c.fill (fork (!d) i (fork d j m x) y)).ptrs := by
    simp only [List.forall_mem_cons, List.forall_mem_append, (c.ptrs_fill_perm _).mem_iff]
    exact ⟨by simp, by simp, fun p hp => by simp [m.root_subset_ptrs p hp],
      fun p hp => by simp [c.ptr_subset_ptrs p hp]⟩
  refine ⟨⟨?_, ?_, ?_, ?_⟩, ?_⟩
  · simpa [rotated] using htree₂
  · simpa [rotated] using Context.holds_cells_agree (hpair _ _) hc₂ (by simp [hic, hjc])
  · refine holds_cells_fork.mpr ⟨?_, holds_cells_fork.mpr ⟨?_, ?_, ?_⟩, ?_⟩
    · simp [Item.toNode]
    · simp [Item.toNode, Heap.get_set, hij]
    · exact holds_cells_agree (hpair _ _) hm₂ (by simp [him, hjm])
    · exact holds_cells_agree (hpair _ _) (holds_cells_agree hall hy hyall) (by simp [hiy, hjy])
    · exact holds_cells_agree (hpair _ _) (holds_cells_agree hall hx hxall) (by simp [hix, hjx])
  · rwa [c.ptrs_fill_congr ptrs_rotated]
  · exact (hall.mono hsub).trans ((hpair _ _).mono fun p hp => hsub p (by simp at hp ⊢; tauto))

/-! ## Rearranging a tree

The loops that restore the colours only rotate and repaint.  `Arranged` is what such steps keep:
the sequence `seq`, the summaries, and everything outside the cells `ps`. -/

structure Arranged (sums : Prop) (callback : Callback E S) (ps : List P)
    (heap₀ : Heap P (Node P E S))
    (seq : List (P × E)) (mem : TreeMem P E S) (c : Context P E S) (t : Tree P E S) : Prop
    extends Represents mem c t where
  seq_eq : (c.fill t).seq = seq
  summed : sums → (c.fill t).Summed callback
  subset : ∀ p ∈ (c.fill t).ptrs, p ∈ ps
  agree : Heap.AgreeOff ps heap₀ mem.heap

section Arranged
variable {sums : Prop} {ps : List P} {heap₀ : Heap P (Node P E S)} {seq : List (P × E)}
  {mem : TreeMem P E S}
  {c : Context P E S} {d : IsRightChild} {i : Item P E S} {a b t : Tree P E S}

theorem arranged_frame : Arranged sums callback ps heap₀ seq mem (.frame d i b c) a ↔
    Arranged sums callback ps heap₀ seq mem c (fork d i a b) :=
  ⟨fun ⟨hrep, hseq, hsum, hsub, hagree⟩ => ⟨represents_frame.mp hrep, hseq, hsum, hsub, hagree⟩,
    fun ⟨hrep, hseq, hsum, hsub, hagree⟩ => ⟨represents_frame.mpr hrep, hseq, hsum, hsub, hagree⟩⟩

/-- Moving the focus from one child to the other. -/
theorem arranged_flip : Arranged sums callback ps heap₀ seq mem (.frame d i b c) a ↔
    Arranged sums callback ps heap₀ seq mem (.frame (!d) i a c) b := by
  rw [arranged_frame, arranged_frame, fork_not]

namespace Arranged

/-- Overwriting the colour of the root of the focus. -/
theorem recolor (hlaw : sums → LawfulCallback callback) (color : Color)
    (h : Arranged sums callback ps heap₀ seq mem c (fork d i a b)) :
    Runs (modifyNode i.ptr fun n => { n with color := color }) mem fun _ mem' =>
      Arranged sums callback ps heap₀ seq mem' c (fork d { i with color := color } a b) := by
  refine (modifyItem_spec h.toRepresents { i with color := color } rfl fun _ _ => rfl).mono ?_
  rintro _ mem' ⟨hrep, hagree⟩
  have hseq := c.seq_fill_congr (seq_recolor d i color a b)
  refine ⟨hrep, hseq.trans h.seq_eq, ?_, ?_, h.agree.trans (hagree.mono ?_)⟩
  · intro hs
    have := hlaw hs
    simpa [Context.summed_fill] using Context.summed_fill.mp (h.summed hs)
  · rw [ptrs, hseq]
    exact h.subset
  · simpa using h.subset i.ptr (by simp [(c.ptrs_fill_perm _).mem_iff])

theorem rotate (hlaw : sums → LawfulCallback callback) {j : Item P E S} {m x y : Tree P E S}
    (h : Arranged sums callback ps heap₀ seq mem c (fork (!d) i (fork d j m x) y)) :
    Runs (rotate debug callback i.ptr d) mem fun _ mem' =>
      Arranged sums callback ps heap₀ seq mem' c (rotated callback d i j m x y) := by
  refine (rotate_spec h.toRepresents).mono ?_
  rintro _ mem' ⟨hrep, hagree⟩
  have hseq := c.seq_fill_congr (seq_rotated callback d i j m x y)
  refine ⟨hrep, hseq.trans h.seq_eq, ?_, ?_, h.agree.trans (hagree.mono h.subset)⟩
  · intro hs
    have := hlaw hs
    obtain ⟨hcsum, htsum⟩ := Context.summed_fill.mp (h.summed hs)
    exact Context.summed_fill.mpr ⟨by rwa [total_rotated], summed_rotated htsum⟩
  · rw [ptrs, hseq]
    exact h.subset

/-- The red-black conditions may be checked at the focus. -/
theorem linked {k : ℕ} (h : Arranged sums callback ps heap₀ seq mem c t) (hc : c.RedBlack k)
    (ht : t.RedBlack k) (hcolor : t.color = .red → c.color = .black) :
    Linked sums callback mem seq := by
  obtain ⟨k, hk⟩ := Context.redBlack_fill hc ht hcolor
  exact ⟨c.fill t, k, represents_fill.mp h.toRepresents, hk, h.summed, h.seq_eq⟩

end Arranged

end Arranged

end Interlock.RbTree
