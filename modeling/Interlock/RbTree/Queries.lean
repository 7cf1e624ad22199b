import Interlock.RbTree.Run

/-!
# Queries on the trees of a run

A traversal of the tree of a run lists every linked node once.  In its terms the queries have a
plain meaning: `successor` and `predecessor` lead to the next and to the previous entry,
`lower_bound` to the first one past a boundary, and `prefix_sum` adds up what comes before an entry.

`iter` and `iterRev` are the iterators of the tests.
-/

namespace Interlock.RbTree

open Memory Node

variable {P E S : Type} [DecidableEq P]

namespace Node

/-- An iterator that yields `cursor` and moves it on by `next`, up to its end. -/
def collect (next : P → TreeM P E S (Option P)) : ℕ → Option P → TreeM P E S (List P)
  | _, none => pure []
  | 0, some _ => throw .diverge
  | fuel + 1, some current => do
    let cursor ← next current
    return current :: (← collect next fuel cursor)

/-- `Node::iter` -/
def iter (fuel : ℕ) : TreeM P E S (List P) := do
  match (← get).tree with
  | some root => collect successor fuel (some (← min root))
  | none => collect successor fuel none

/-- `Node::iter_rev` -/
def iterRev (fuel : ℕ) : TreeM P E S (List P) := do
  match (← get).tree with
  | some root => collect predecessor fuel (some (← max root))
  | none => collect predecessor fuel none

end Node

variable {debug : Bool} {callback : Callback E S} {mem : TreeMem P E S} {sums : Prop}
  {seq pre post : List (P × E)} {x : P × E}

omit [DecidableEq P] in
/-- A query that leaves the memory alone is settled by its answer. -/
theorem eq_ok {α : Type} {m : TreeM P E S α} {a : α}
    (h : Runs m mem fun r mem' => r = a ∧ mem' = mem) : m mem = .ok a mem := by
  obtain ⟨r, mem', hrun, rfl, rfl⟩ := h
  exact hrun

theorem Linked.mono {sums' : Prop} (h : Linked sums callback mem seq) (himp : sums' → sums) :
    Linked sums' callback mem seq := by
  obtain ⟨t, k, hrep, hrb, hsum, hseq⟩ := h
  exact ⟨t, k, hrep, hrb, fun hs => hsum (himp hs), hseq⟩

/-! ## Neighbours -/

omit [DecidableEq P] in
/-- An iterator that moves from each entry of a list to the next one yields the list. -/
theorem collect_eq {next : P → TreeM P E S (Option P)} (ps : List P)
    (hnext : ∀ before p after, ps = before ++ p :: after → next p mem = .ok after.head? mem)
    (fuel : ℕ) (hfuel : ps.length ≤ fuel) : collect next fuel ps.head? mem = .ok ps mem := by
  induction ps generalizing fuel with
  | nil => cases fuel <;> rfl
  | cons p ps ih =>
      cases fuel with
      | zero => simp at hfuel
      | succ fuel =>
          have htail : collect next fuel ps.head? mem = .ok ps mem := by
            apply ih
            · intro before q after hsplit
              exact hnext (p :: before) q after (by rw [hsplit, List.cons_append])
            · simpa using hfuel
          have hstep : next p mem = .ok ps.head? mem := hnext [] p ps rfl
          simp only [List.head?_cons, collect, bind, EStateM.bind, hstep, htail]
          rfl

theorem Linked.iter (h : Linked sums callback mem seq) (fuel : ℕ) (hfuel : seq.length ≤ fuel) :
    Node.iter fuel mem = .ok (seq.map Prod.fst) mem := by
  have hcollect : collect Node.successor fuel (seq.map Prod.fst).head? mem =
      .ok (seq.map Prod.fst) mem := by
    apply collect_eq
    · intro before p after hsplit
      obtain ⟨pre, rest, rfl, rfl, hrest⟩ := List.map_eq_append_iff.mp hsplit
      obtain ⟨x, post, rfl, rfl, rfl⟩ := List.map_eq_cons_iff.mp hrest
      rw [List.head?_map]
      exact eq_ok h.successor
    · simpa using hfuel
  cases htree : mem.tree with
  | none =>
      obtain rfl := h.tree_eq_none.mp htree
      apply eq_ok
      simp only [Node.iter, runs_bind, runs_get, htree]
      exact ⟨_, _, hcollect, rfl, rfl⟩
  | some root =>
      apply eq_ok
      simp only [Node.iter, runs_bind, runs_get, htree]
      refine (h.min htree).mono ?_
      rintro first mem' ⟨hfirst, rfl⟩
      rw [hfirst, ← List.head?_map]
      exact ⟨_, _, hcollect, rfl, rfl⟩

theorem Linked.iterRev (h : Linked sums callback mem seq) (fuel : ℕ) (hfuel : seq.length ≤ fuel) :
    Node.iterRev fuel mem = .ok (seq.map Prod.fst).reverse mem := by
  have hcollect : collect Node.predecessor fuel (seq.map Prod.fst).reverse.head? mem =
      .ok (seq.map Prod.fst).reverse mem := by
    apply collect_eq
    · intro before p after hsplit
      have hsplit' : seq.map Prod.fst = after.reverse ++ p :: before.reverse := by
        rw [← List.reverse_reverse (seq.map Prod.fst), hsplit]
        simp
      obtain ⟨pre, rest, rfl, hpre, hrest⟩ := List.map_eq_append_iff.mp hsplit'
      obtain ⟨x, post, rfl, rfl, -⟩ := List.map_eq_cons_iff.mp hrest
      rw [← List.getLast?_reverse, ← hpre, List.getLast?_map]
      exact eq_ok h.predecessor
    · simpa using hfuel
  cases htree : mem.tree with
  | none =>
      obtain rfl := h.tree_eq_none.mp htree
      apply eq_ok
      simp only [Node.iterRev, runs_bind, runs_get, htree]
      exact ⟨_, _, hcollect, rfl, rfl⟩
  | some root =>
      apply eq_ok
      simp only [Node.iterRev, runs_bind, runs_get, htree]
      refine (h.max htree).mono ?_
      rintro last mem' ⟨hlast, rfl⟩
      rw [hlast, ← List.getLast?_map, ← List.head?_reverse]
      exact ⟨_, _, hcollect, rfl, rfl⟩

/-- Two nodes are neighbours for `successor` iff they are for `predecessor`. -/
theorem Linked.successor_iff_predecessor (h : Linked sums callback mem seq) {p q : P}
    (hp : p ∈ seq.map Prod.fst) (hq : q ∈ seq.map Prod.fst) :
    Node.successor p mem = .ok (some q) mem ↔ Node.predecessor q mem = .ok (some p) mem := by
  constructor
  · intro hsucc
    obtain ⟨pre, e, post, rfl⟩ := exists_split hp
    have hnext := eq_ok (h.successor (x := (p, e)))
    obtain ⟨y, hy, rfl⟩ : ∃ y, post.head? = some y ∧ y.1 = q := by
      rw [hsucc] at hnext
      injection hnext with hhead
      exact Option.map_eq_some_iff.mp hhead.symm
    obtain ⟨post', rfl⟩ := List.head?_eq_some_iff.mp hy
    have hsplit : pre ++ (p, e) :: y :: post' = (pre ++ [(p, e)]) ++ y :: post' := by simp
    rw [hsplit] at h
    simpa using eq_ok h.predecessor
  · intro hpred
    obtain ⟨pre, e, post, rfl⟩ := exists_split hq
    have hprev := eq_ok (h.predecessor (x := (q, e)))
    obtain ⟨y, hy, rfl⟩ : ∃ y, pre.getLast? = some y ∧ y.1 = p := by
      rw [hpred] at hprev
      injection hprev with hlast
      exact Option.map_eq_some_iff.mp hlast.symm
    obtain ⟨pre', rfl⟩ := List.getLast?_eq_some_iff.mp hy
    rw [List.append_assoc, List.singleton_append] at h
    simpa using eq_ok h.successor

/-- On the tree of any run `successor` and `predecessor` lead to the neighbours in the in-order
sequence and undo one another, and the iterators yield every linked node exactly once. -/
theorem Run.neighbours (run : Run False debug callback mem seq) :
    ∃ order : List (P × E), InOrder mem.heap mem.tree order ∧ order.Perm seq ∧
      (order.map Prod.fst).Nodup ∧
      (∀ pre x post, order = pre ++ x :: post →
        successor x.1 mem = .ok (post.head?.map Prod.fst) mem ∧
        predecessor x.1 mem = .ok (pre.getLast?.map Prod.fst) mem) ∧
      (∀ p ∈ seq.map Prod.fst, ∀ q ∈ seq.map Prod.fst,
        successor p mem = .ok (some q) mem ↔ predecessor q mem = .ok (some p) mem) ∧
      ∀ fuel, order.length ≤ fuel →
        iter fuel mem = .ok (order.map Prod.fst) mem ∧
        iterRev fuel mem = .ok (order.map Prod.fst).reverse mem := by
  obtain ⟨order, hlinked, hperm⟩ := run.linked False.elim
  refine ⟨order, hlinked.inOrder, hperm, hlinked.nodup, ?_, ?_, ?_⟩
  · rintro pre x post rfl
    exact ⟨eq_ok hlinked.successor, eq_ok hlinked.predecessor⟩
  · intro p hp q hq
    rw [← (hperm.map Prod.fst).mem_iff] at hp hq
    exact hlinked.successor_iff_predecessor hp hq
  · intro fuel hfuel
    exact ⟨hlinked.iter fuel hfuel, hlinked.iterRev fuel hfuel⟩

theorem neighbours_ties : ∃ (mem : TreeMem ℕ ℕ Unit) (order : List (ℕ × ℕ)), mem.tree = some 0 ∧
    order.Perm [(2, 5), (0, 5), (1, 6)] ∧ iter 3 mem = .ok (order.map Prod.fst) mem := by
  obtain ⟨mem, htree, run⟩ := run_ties
  obtain ⟨order, -, hperm, -, -, -, hiter⟩ := run.neighbours
  exact ⟨mem, order, htree, hperm, (hiter 3 hperm.length_eq.le).1⟩

/-! ## Rank sums -/

omit [DecidableEq P] in
/-- The boundary that a search stops at. -/
theorem find?_boundary {cmp : E → Ordering} (hpre : ∀ x ∈ pre, cmp x.2 = .gt)
    (hpost : ∀ x ∈ post, cmp x.2 ≠ .gt) :
    (pre ++ post).find? (fun x => cmp x.2 ≠ .gt) = post.head? := by
  rw [List.find?_append, List.find?_eq_none.mpr fun x hx => by simp [hpre x hx], Option.none_or]
  cases post with
  | nil => rfl
  | cons x post => simp [hpost x (by simp)]

omit [DecidableEq P] in
/-- Answers that are first `Greater` and then not. -/
theorem pairwise_boundary {cmp : E → Ordering} (hpre : ∀ x ∈ pre, cmp x.2 = .gt)
    (hpost : ∀ x ∈ post, cmp x.2 ≠ .gt) :
    (pre ++ post).Pairwise fun a b => cmp b.2 = .gt → cmp a.2 = .gt := by
  rw [List.pairwise_append]
  refine ⟨?_, ?_, fun a ha _ _ _ => hpre a ha⟩
  · exact List.pairwise_of_forall_mem_list fun a ha _ _ _ => hpre a ha
  · exact List.pairwise_of_forall_mem_list fun _ _ b hb hgt => absurd hgt (hpost b hb)

theorem Linked.lowerBound_boundary (h : Linked sums callback mem (pre ++ post))
    {cmp : E → Ordering} (hpre : ∀ x ∈ pre, cmp x.2 = .gt) (hpost : ∀ x ∈ post, cmp x.2 ≠ .gt) :
    Node.lowerBound cmp mem = .ok (post.head?.map Prod.fst) mem := by
  have hrun := h.lowerBound (pairwise_boundary hpre hpost)
  rw [find?_boundary hpre hpost] at hrun
  exact eq_ok hrun

/-- The sum of what precedes a boundary. -/
theorem Linked.prefixSum_boundary [LawfulCallback callback]
    (h : Linked True callback mem (pre ++ post)) :
    Node.prefixSum callback (post.head?.map Prod.fst) mem = .ok (sumSeq callback pre) mem := by
  cases post with
  | nil =>
      rw [List.append_nil] at h
      exact eq_ok h.prefixSum_none
  | cons x post => exact eq_ok h.prefixSum

/-- On the tree of any run `lower_bound` finds the first entry whose answer is not `Greater`, and
`prefix_sum` adds up the entries before its argument, so that one after the other they add up the
entries that answer `Greater`. -/
theorem Run.rank_sums (hlaw : sums → LawfulCallback callback)
    (run : Run sums debug callback mem seq) :
    ∃ order : List (P × E), InOrder mem.heap mem.tree order ∧ order.Perm seq ∧
      (∀ (cmp : E → Ordering) (pre post : List (P × E)), order = pre ++ post →
        (∀ x ∈ pre, cmp x.2 = .gt) → (∀ x ∈ post, cmp x.2 = .eq ∨ cmp x.2 = .lt) →
          lowerBound cmp mem = .ok (post.head?.map Prod.fst) mem ∧
          (sums → (lowerBound cmp >>= prefixSum callback) mem = .ok (sumSeq callback pre) mem)) ∧
      (sums →
        (∀ pre x post, order = pre ++ x :: post →
          prefixSum callback (some x.1) mem = .ok (sumSeq callback pre) mem) ∧
        prefixSum callback none mem = .ok (sumSeq callback order) mem ∧
        (seq = [] → prefixSum callback none mem = .ok callback.zeroSummary mem)) := by
  obtain ⟨order, hlinked, hperm⟩ := run.linked hlaw
  refine ⟨order, hlinked.inOrder, hperm, ?_, ?_⟩
  · rintro cmp pre post rfl hpre hpost
    have hpost' : ∀ x ∈ post, cmp x.2 ≠ .gt := by
      intro x hx
      rcases hpost x hx with hanswer | hanswer <;> simp [hanswer]
    have hbound := hlinked.lowerBound_boundary hpre hpost'
    refine ⟨hbound, fun hs => ?_⟩
    have := hlaw hs
    have hsummed : Linked True callback mem (pre ++ post) := hlinked.mono fun _ => hs
    have hsum := hsummed.prefixSum_boundary
    simp only [bind, EStateM.bind, hbound, hsum]
  · intro hs
    have := hlaw hs
    have hsummed : Linked True callback mem order := hlinked.mono fun _ => hs
    refine ⟨?_, eq_ok hsummed.prefixSum_none, ?_⟩
    · rintro pre x post rfl
      exact eq_ok hsummed.prefixSum
    · rintro rfl
      obtain rfl := hperm.eq_nil
      exact eq_ok hsummed.prefixSum_none

theorem rank_sums_after_four : ∃ (mem : TreeMem ℕ Int Int) (order : List (ℕ × Int)),
    mem.tree = some 2 ∧ order.Perm [(2, 7), (1, 4)] ∧
      prefixSum parityCallback none mem = .ok (sumSeq parityCallback order) mem := by
  obtain ⟨mem, htree, run⟩ := run_after_four
  obtain ⟨order, -, hperm, -, hsums⟩ := run.rank_sums fun _ => inferInstance
  exact ⟨mem, order, htree, hperm, (hsums trivial).2.1⟩

end Interlock.RbTree
