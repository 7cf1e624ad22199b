import Interlock.RbTree.Insert

/-!
# Rebalancing after a removal

When `remove` has taken out a black node, its place is one black node short.  `rebalance` carries
this deficit up the path until a rotation or a repaint pays for it.  Two of its cases iterate
without going up; `rebalance_red` and `rebalance_close` say that at most two more iterations follow.
-/

namespace Interlock.RbTree

open Memory Node Interlock.RbTree.Tree

variable {P E S : Type} [DecidableEq P] {debug : Bool} {callback : Callback E S}

theorem withColor_spec {mem : TreeMem P E S} {t : Tree P E S} {parent : Option P}
    (hold : mem.heap.Holds (t.cells parent)) {post : Option (P × Color) → TreeMem P E S → Prop} :
    Runs (withColor t.root) mem post ↔ post (t.root.map fun p => (p, t.color)) mem := by
  cases t with
  | nil => simp [withColor]
  | node item left right =>
      simp only [cells, Heap.holds_cons] at hold
      simp [withColor, hold.1]

/-- The branch of `rebalance` in which both sides are now one short. -/
def goOnAtParent (debug : Bool) (callback : Callback E S) (fuel : ℕ) (parent sibling : P) :
    TreeM P E S Unit := do
  modifyNode sibling fun n => { n with color := .red }
  match (← load parent).parent with
  | some grandparent =>
      let side ← sideOf grandparent parent
      debugAssert debug ((← load grandparent).children side == some parent) leftEqRight
      rebalance debug callback fuel grandparent side
  | none => return ()

section Rebalance
variable {sums : Prop} (hlaw : sums → LawfulCallback callback) {ps : List P}
  {heap₀ : Heap P (Node P E S)}
  {seq : List (P × E)} {mem : TreeMem P E S} {side : IsRightChild} {p s : Item P E S}
  {close distant t : Tree P E S} {up : Context P E S} {h : ℕ}

/-- What one iteration reads before it decides what to do. -/
theorem rebalance_reads
    (harr : Arranged sums callback ps heap₀ seq mem
      (.frame side p (fork side s close distant) up) t) :
    mem.heap.get p.ptr = some (p.toNode up.ptr (sides side t.root (some s.ptr))) ∧
      mem.heap.get s.ptr = some (s.toNode (some p.ptr) (sides side close.root distant.root)) ∧
      mem.heap.Holds (close.cells (some s.ptr)) ∧ mem.heap.Holds (distant.cells (some s.ptr)) := by
  have hfork := (arranged_frame.mp harr).focus
  obtain ⟨hp, -, hsib⟩ := holds_cells_fork.mp hfork
  exact ⟨by simpa using hp, holds_cells_fork.mp hsib⟩

include hlaw

/-- A red distant nephew: one rotation ends the loop. -/
theorem rebalance_distant (fuel : ℕ)
    (harr : Arranged sums callback ps heap₀ seq mem
      (.frame side p (fork side s close distant) up) t)
    (hc : (Context.frame side p (fork side s close distant) up).RedBlack (h + 1))
    (ht : t.RedBlack h) (hs : s.color = .black) (hdistant : distant.color = .red) :
    Runs (rebalance debug callback (fuel + 1) p.ptr side) mem fun _ mem' =>
      Linked sums callback mem' seq ∧ Heap.AgreeOff ps heap₀ mem'.heap := by
  obtain ⟨hp, hsget, hclose, hdist⟩ := rebalance_reads harr
  simp only [rebalance, runs_bind, runs_load, hp, hsget, Option.some.injEq, exists_eq_left',
    runs_expect, Item.toNode_children, sides_not, sides_self, withColor_spec hclose,
    withColor_spec hdist, Item.toNode_color, hs]
  obtain ⟨q, a, b, rfl⟩ : ∃ q a b, distant = fork false q a b := by
    rcases eq_nil_or_fork false distant with rfl | hfork
    · simp at hdistant
    · exact hfork
  obtain ⟨hsib, hpcolors, hup⟩ := hc
  obtain ⟨k, hcloserb, hdistrb, -, hk⟩ := redBlack_fork.mp hsib
  simp only [hs, Color.weight_black, Nat.add_right_cancel_iff] at hk
  subst hk
  obtain ⟨k, ha, hb, -, rfl⟩ := redBlack_fork.mp hdistrb
  simp only [color_fork] at hdistant
  simp only [root_fork, color_fork, hdistant, Option.map_some, runs_bind]
  -- `sibling` moves up, and takes over the colour of `parent`
  have harr₀ : Arranged sums callback ps heap₀ seq mem up
      (fork (!side) p (fork side s close (fork false q a b)) t) := by
    rw [fork_not]
    exact arranged_frame.mp harr
  refine (harr₀.rotate hlaw).mono ?_
  intro _ mem₁ harr₁
  rw [rotated] at harr₁
  have hs₁ := harr₁.get_root
  have hp₁ := (arranged_frame.mpr harr₁).get_root
  simp only [runs_load, hs₁, hp₁, Option.some.injEq, exists_eq_left', Item.toNode_color, hs]
  refine (harr₁.recolor hlaw p.color).mono ?_
  intro _ mem₂ harr₂
  refine ((arranged_frame.mpr harr₂).recolor hlaw .black).mono ?_
  intro _ mem₃ harr₃
  refine ((arranged_flip.mp harr₃).recolor hlaw .black).mono ?_
  intro _ mem₄ harr₄
  refine ⟨(arranged_frame.mp harr₄).linked hup ?_ fun hcolor => ?_, harr₄.agree⟩
  · simp only [hdistant, Color.weight_red, Nat.add_zero] at hcloserb ht ⊢
    refine redBlack_fork.mpr ⟨k + 1, ?_, ?_, ?_, rfl⟩
    · exact redBlack_fork.mpr ⟨k, ha, hb, by simp, rfl⟩
    · exact redBlack_fork.mpr ⟨k, hcloserb, ht, by simp, rfl⟩
    · simp
  · simp only [color_fork] at hcolor
    exact (hpcolors hcolor).2

/-- A red close nephew becomes the sibling, with a red distant child. -/
theorem rebalance_close (fuel : ℕ)
    (harr : Arranged sums callback ps heap₀ seq mem
      (.frame side p (fork side s close distant) up) t)
    (hc : (Context.frame side p (fork side s close distant) up).RedBlack (h + 1))
    (ht : t.RedBlack h) (hs : s.color = .black) (hclose : close.color = .red)
    (hdistant : distant.color = .black) :
    Runs (rebalance debug callback (fuel + 2) p.ptr side) mem fun _ mem' =>
      Linked sums callback mem' seq ∧ Heap.AgreeOff ps heap₀ mem'.heap := by
  obtain ⟨hp, hsget, hcl, hdist⟩ := rebalance_reads harr
  rw [rebalance]
  simp only [runs_bind, runs_load, hp, hsget, Option.some.injEq, exists_eq_left', runs_expect,
    Item.toNode_children, sides_not, sides_self, withColor_spec hcl, withColor_spec hdist,
    Item.toNode_color, hs]
  obtain ⟨q, m, x, rfl⟩ : ∃ q m x, close = fork (!side) q m x := by
    rcases eq_nil_or_fork (!side) close with rfl | hfork
    · simp at hclose
    · exact hfork
  obtain ⟨hsib, hpcolors, hup⟩ := hc
  obtain ⟨k, hclrb, hdistrb, -, hk⟩ := redBlack_fork.mp hsib
  simp only [hs, Color.weight_black, Nat.add_right_cancel_iff] at hk
  subst hk
  obtain ⟨k, hm, hx, hqcolors, rfl⟩ := redBlack_fork.mp hclrb
  simp only [color_fork] at hclose
  obtain ⟨hmcolor, hxcolor⟩ := hqcolors hclose
  simp only [hclose, Color.weight_red, Nat.add_zero] at hdistrb ht hup
  have harr₀ : Arranged sums callback ps heap₀ seq mem (.frame (!side) p t up)
      (fork (!(!side)) s (fork (!side) q m x) distant) := by
    rw [Bool.not_not]
    exact arranged_flip.mp harr
  have hgoal : Runs (do
      rotate debug callback s.ptr (!side)
      modifyNode s.ptr fun n => { n with color := .red }
      modifyNode q.ptr fun n => { n with color := .black }
      rebalance debug callback (fuel + 1) p.ptr side) mem fun _ mem' =>
        Linked sums callback mem' seq ∧ Heap.AgreeOff ps heap₀ mem'.heap := by
    refine (harr₀.rotate hlaw).bind ?_
    intro _ mem₁ harr₁
    rw [rotated, Bool.not_not] at harr₁
    have hs₁ := arranged_frame.mpr harr₁
    refine (hs₁.recolor hlaw .red).bind ?_
    intro _ mem₂ harr₂
    refine ((arranged_frame.mp harr₂).recolor hlaw .black).bind ?_
    intro _ mem₃ harr₃
    rw [fork_not] at harr₃
    refine rebalance_distant hlaw (h := k) fuel (arranged_flip.mpr harr₃) ⟨?_, ?_, hup⟩ ht rfl
      (by simp)
    · refine redBlack_fork.mpr ⟨k, hx, redBlack_fork.mpr ⟨k, hm, hdistrb, ?_, rfl⟩, by simp, rfl⟩
      exact fun _ => ⟨hmcolor, hdistant⟩
    · exact fun hred => ⟨by simp, (hpcolors hred).2⟩
  simp only [runs_bind] at hgoal
  simp only [root_fork, color_fork, hclose, Option.map_some]
  rcases eq_nil_or_fork false distant with rfl | ⟨r, a, b, rfl⟩
  · cases p.color <;> simpa only [root_nil, Option.map_none, runs_bind] using hgoal
  · simp only [color_fork] at hdistant
    cases p.color <;>
      simpa only [root_fork, color_fork, Option.map_some, hdistant, runs_bind] using hgoal

/-- A red parent pays for the missing black node itself, unless a nephew is red. -/
theorem rebalance_red (fuel : ℕ)
    (harr : Arranged sums callback ps heap₀ seq mem
      (.frame side p (fork side s close distant) up) t)
    (hc : (Context.frame side p (fork side s close distant) up).RedBlack (h + 1))
    (ht : t.RedBlack h) (hp : p.color = .red) (hs : s.color = .black) :
    Runs (rebalance debug callback (fuel + 2) p.ptr side) mem fun _ mem' =>
      Linked sums callback mem' seq ∧ Heap.AgreeOff ps heap₀ mem'.heap := by
  by_cases hdistant : distant.color = .black
  case neg => exact rebalance_distant hlaw _ harr hc ht hs (color_eq_red hdistant)
  by_cases hclose : close.color = .black
  case neg => exact rebalance_close hlaw _ harr hc ht hs (color_eq_red hclose) hdistant
  obtain ⟨hpget, hsget, hcl, hdist⟩ := rebalance_reads harr
  obtain ⟨hsib, hpcolors, hup⟩ := hc
  obtain ⟨k, hclrb, hdistrb, -, hk⟩ := redBlack_fork.mp hsib
  simp only [hs, Color.weight_black, Nat.add_right_cancel_iff] at hk
  subst hk
  rw [rebalance]
  simp only [runs_bind, runs_load, hpget, hsget, Option.some.injEq, exists_eq_left', runs_expect,
    Item.toNode_children, sides_not, sides_self, withColor_spec hcl, withColor_spec hdist,
    Item.toNode_color, hs, hp, hclose, hdistant]
  have hgoal : Runs (do
      modifyNode p.ptr fun n => { n with color := .black }
      modifyNode s.ptr fun n => { n with color := .red }) mem fun _ mem' =>
        Linked sums callback mem' seq ∧ Heap.AgreeOff ps heap₀ mem'.heap := by
    refine ((arranged_frame.mp harr).recolor hlaw .black).bind ?_
    intro _ mem₁ harr₁
    refine ((arranged_flip.mp (arranged_frame.mpr harr₁)).recolor hlaw .red).mono ?_
    intro _ mem₂ harr₂
    refine ⟨(arranged_frame.mp (arranged_flip.mpr harr₂)).linked (k := h + 1) ?_ ?_ (by simp),
      harr₂.agree⟩
    · simpa [hp] using hup
    · refine redBlack_fork.mpr ⟨h, ht, ?_, by simp, rfl⟩
      exact redBlack_fork.mpr ⟨h, hclrb, hdistrb, fun _ => ⟨hclose, hdistant⟩, rfl⟩
  cases close.root <;> cases distant.root <;> exact hgoal

/-- The loop of `remove`: the subtree in focus is one black node short.  As the loop climbs, the
black height of the focus grows, so that what is left of the whole tree's height bounds the
iterations. -/
theorem rebalance_spec (fuel : ℕ) :
    ∀ {side : IsRightChild} {p : Item P E S} {sibling t : Tree P E S} {up : Context P E S}
      {mem : TreeMem P E S} {h : ℕ},
      ((Context.frame side p sibling up).fill t).height ≤ fuel + h →
      Arranged sums callback ps heap₀ seq mem (.frame side p sibling up) t →
      (Context.frame side p sibling up).RedBlack (h + 1) → t.RedBlack h → t.color = .black →
      Runs (rebalance debug callback fuel p.ptr side) mem fun _ mem' =>
        Linked sums callback mem' seq ∧ Heap.AgreeOff ps heap₀ mem'.heap := by
  induction fuel with
  | zero =>
      intro side p sibling t up mem h hheight _ hc _ _
      have hdown := up.depth_add_height_le (fork side p t sibling)
      have hsibling := hc.1.le_height
      rw [Context.fill_frame] at hheight
      rw [height_fork] at hdown
      omega
  | succ fuel ih =>
      intro side p sibling t up mem h hheight harr hc ht htcolor
      obtain ⟨s, close, distant, rfl⟩ := hc.1.exists_fork side
      have hdown := up.depth_add_height_le (fork side p t (fork side s close distant))
      rw [Context.fill_frame] at hheight
      rw [height_fork] at hdown
      by_cases hs : s.color = .black
      case neg =>
        -- A red sibling: after the rotation `parent` is red and its new sibling black
        have hsred := color_eq_red hs
        obtain ⟨hpget, hsget, hcl, hdist⟩ := rebalance_reads harr
        obtain ⟨hsib, hpcolors, hup⟩ := hc
        obtain ⟨k, hclrb, hdistrb, hscolors, hk⟩ := redBlack_fork.mp hsib
        obtain ⟨hclose, hdistant⟩ := hscolors hsred
        simp only [hsred, Color.weight_red, Nat.add_zero] at hk
        subst hk
        have hnephew := hclrb.le_height
        rw [height_fork] at hdown
        obtain ⟨m, rfl⟩ : ∃ m, fuel = m + 2 := ⟨fuel - 2, by omega⟩
        have hp : p.color = .black := by
          by_contra hne
          exact absurd (hpcolors (color_eq_red hne)).1 (by simpa using hs)
        obtain ⟨q, a, b, rfl⟩ := hclrb.exists_fork side
        obtain ⟨r, a', b', rfl⟩ := hdistrb.exists_fork side
        simp only [color_fork] at hclose hdistant
        rw [rebalance]
        simp only [runs_bind, runs_load, hpget, hsget, Option.some.injEq, exists_eq_left',
          runs_expect, Item.toNode_children, sides_not, sides_self, withColor_spec hcl,
          withColor_spec hdist, Item.toNode_color, hsred, hp]
        simp only [root_fork, color_fork, hclose, hdistant, Option.map_some, runs_bind]
        have harr₀ : Arranged sums callback ps heap₀ seq mem up
            (fork (!side) p (fork side s (fork side q a b) (fork side r a' b')) t) := by
          rw [fork_not]
          exact arranged_frame.mp harr
        refine (harr₀.rotate hlaw).mono ?_
        intro _ mem₁ harr₁
        rw [rotated] at harr₁
        refine ((arranged_frame.mpr harr₁).recolor hlaw .red).mono ?_
        intro _ mem₂ harr₂
        refine ((arranged_frame.mp harr₂).recolor hlaw .black).mono ?_
        intro _ mem₃ harr₃
        rw [hp, Color.weight_black] at hup
        have harr₄ := arranged_flip.mpr (arranged_frame.mpr (arranged_frame.mpr harr₃))
        refine (rebalance_red hlaw m harr₄ ⟨hclrb, ?_, hdistrb, ?_, hup⟩ ht rfl hclose : _)
        · exact fun _ => ⟨by simpa using hclose, rfl⟩
        · simp
      have hsibling := hc.1.le_height
      obtain ⟨m, rfl⟩ : ∃ m, fuel = m + 1 := ⟨fuel - 1, by omega⟩
      by_cases hp : p.color = .black
      case neg => exact rebalance_red hlaw _ harr hc ht (color_eq_red hp) hs
      by_cases hdistant : distant.color = .black
      case neg => exact rebalance_distant hlaw _ harr hc ht hs (color_eq_red hdistant)
      by_cases hclose : close.color = .black
      case neg => exact rebalance_close hlaw _ harr hc ht hs (color_eq_red hclose) hdistant
      -- The sibling becomes red, and the deficit moves up
      obtain ⟨hpget, hsget, hcl, hdist⟩ := rebalance_reads harr
      obtain ⟨hsib, hpcolors, hup⟩ := hc
      obtain ⟨k, hclrb, hdistrb, -, hk⟩ := redBlack_fork.mp hsib
      simp only [hs, Color.weight_black, Nat.add_right_cancel_iff] at hk
      subst hk
      rw [hp, Color.weight_black] at hup
      rw [rebalance]
      simp only [runs_bind, runs_load, hpget, hsget, Option.some.injEq, exists_eq_left',
        runs_expect, Item.toNode_children, sides_not, sides_self, withColor_spec hcl,
        withColor_spec hdist, Item.toNode_color, hs, hp, hclose, hdistant]
      have hgoal : Runs (goOnAtParent debug callback (m + 1) p.ptr s.ptr) mem fun _ mem' =>
            Linked sums callback mem' seq ∧ Heap.AgreeOff ps heap₀ mem'.heap := by
        refine ((arranged_flip.mp harr).recolor hlaw .red).bind ?_
        intro _ mem₁ harr₁
        have harr₂ := arranged_frame.mp (arranged_flip.mpr harr₁)
        have hrb : (fork side p t (fork side { s with color := .red } close distant)).RedBlack
            (h + 1) := by
          refine redBlack_fork.mpr ⟨h, ht, ?_, by simp [hp], by simp [hp]⟩
          exact redBlack_fork.mpr ⟨h, hclrb, hdistrb, fun _ => ⟨hclose, hdistant⟩, rfl⟩
        simp only [runs_bind, runs_load, harr₂.get_root, Option.some.injEq, exists_eq_left',
          Item.toNode_parent]
        cases up with
        | top =>
            simp only [Context.ptr_top, runs_pure]
            exact ⟨harr₂.linked trivial hrb fun _ => rfl, harr₂.agree⟩
        | frame qside q qsibling qup =>
            have hq := harr₂.get_parent
            have hcontext := harr₂.context
            simp only [root_fork] at hcontext hq
            have hpq : p.ptr ∉ qsibling.ptrs := fun hmem => harr₂.root_not_mem (by simp [hmem])
            simp only [Context.ptr_frame, runs_bind, sideOf_spec hcontext hpq, runs_load, hq,
              Option.some.injEq, exists_eq_left', Item.toNode_children, sides_self,
              runs_debugAssert, beq_self_eq_true, implies_true, true_and]
            refine ih ?_ harr₂ hup hrb (by simp [hp])
            have hsame : (fork side p t (fork side { s with color := .red } close distant)).height =
                (fork side p t (fork side s close distant)).height := by
              simp only [height_fork]
            have hle := (Context.frame qside q qsibling qup).height_fill_mono hsame.le
            omega
      cases close.root <;> cases distant.root <;> exact hgoal

end Rebalance

end Interlock.RbTree
