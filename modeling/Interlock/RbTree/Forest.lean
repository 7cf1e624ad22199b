import Interlock.RbTree.Run

/-!
# Several trees in one memory

The trees `trees c` share the memory `heap`.  Each links the nodes of its own sequence `seqs c`, no
node is in two trees, and the live cells are the linked ones and those listed in `loose`: nodes that
have been created but not inserted yet, or removed but not dropped yet.
-/

namespace Interlock.RbTree

open Memory Node Interlock.RbTree.Tree

variable {C P E S : Type} [DecidableEq C] [DecidableEq P]

structure Forest (callback : Callback E S) (trees : C → Option P) (heap : Heap P (Node P E S))
    (seqs : C → List (P × E)) (loose : List P) : Prop where
  linked : ∀ c, Linked True callback ⟨trees c, heap⟩ (seqs c)
  apart : ∀ c c' p, p ∈ (seqs c).map Prod.fst → p ∈ (seqs c').map Prod.fst → c = c'
  live : ∀ p, (heap.get p).isSome ↔ p ∈ loose ∨ ∃ c, p ∈ (seqs c).map Prod.fst
  loose_nodup : loose.Nodup
  loose_apart : ∀ p ∈ loose, ∀ c, p ∉ (seqs c).map Prod.fst

/-- Overwriting the element of a linked node, if its summary stays the same. -/
theorem Linked.edit {callback : Callback E S} [LawfulCallback callback] {mem : TreeMem P E S}
    {pre post : List (P × E)} {p : P} {e : E}
    (h : Linked True callback mem (pre ++ (p, e) :: post)) {f : Node P E S → Node P E S} (e' : E)
    (hf : ∀ n, n.element = e → f n = { n with element := e' })
    (hsummary : callback.elementToSummary e' = callback.elementToSummary e) :
    Runs (modifyNode p f) mem fun _ mem' =>
      Linked True callback mem' (pre ++ (p, e') :: post) ∧
        Heap.AgreeOff [p] mem.heap mem'.heap := by
  obtain ⟨t, k, hrep, hrb, hsum, hseq⟩ := h
  obtain ⟨c, i, a, b, hfill, hi, hpre, hpost⟩ := Context.exists_focus .top hseq
  simp only [Context.fill_top, Context.pre, Context.post, List.nil_append, List.append_nil]
    at hfill hpre hpost
  subst hfill
  obtain ⟨rfl, rfl⟩ : i.ptr = p ∧ i.element = e := by simpa [Item.entry] using hi
  have hnode : ∀ parent children,
      f (i.toNode parent children) = { i with element := e' }.toNode parent children :=
    fun parent children => hf _ rfl
  refine (modifyItem_spec (d := false) (represents_fill.mpr hrep) { i with element := e' } rfl
    hnode).mono ?_
  rintro _ mem' ⟨hrep', hagree⟩
  obtain ⟨h, hc, hnode, hcolor⟩ := Context.redBlack_of_fill hrb
  obtain ⟨hcsum, hisum, hasum, hbsum⟩ := Context.summed_fill.mp (hsum trivial)
  obtain ⟨k', hk'⟩ := Context.redBlack_fill (t := fork false { i with element := e' } a b) hc hnode
    hcolor
  have htotal : (fork false { i with element := e' } a b).total callback =
      (node i a b).total callback := by
    simp only [fork, total, hsummary]
  refine ⟨⟨_, k', represents_fill.mp hrep', hk', fun _ => ?_, ?_⟩, hagree⟩
  · refine Context.summed_fill.mpr ⟨htotal ▸ hcsum, hisum.trans htotal.symm, hasum, hbsum⟩
  · rw [c.seq_fill, ← hpre, ← hpost]
    simp [fork, Item.entry]

namespace Forest
variable {debug : Bool} {callback : Callback E S} {trees : C → Option P}
  {heap heap' : Heap P (Node P E S)} {seqs : C → List (P × E)} {loose : List P} {c : C} {p : P}
  {n : Node P E S}

omit [DecidableEq C] in
theorem empty : Forest callback (fun _ : C => (none : Option P)) .empty (fun _ => []) [] where
  linked _ := ⟨nil, 0, ⟨rfl, Heap.holds_nil _, Heap.holds_nil _, List.nodup_nil⟩, rfl,
    fun _ => trivial, rfl⟩
  apart := by simp
  live := by simp
  loose_nodup := List.nodup_nil
  loose_apart := by simp

omit [DecidableEq C] in
theorem get_isSome (h : Forest callback trees heap seqs loose) {x : P × E} (hx : x ∈ seqs c) :
    ∃ n, heap.get x.1 = some n ∧ n.element = x.2 := (h.linked c).get hx

omit [DecidableEq C] in
theorem not_mem_of_get_eq_none (h : Forest callback trees heap seqs loose)
    (hp : heap.get p = none) : p ∉ loose ∧ ∀ c, p ∉ (seqs c).map Prod.fst := by
  have hlive := (h.live p).not.mp (by simp [hp])
  rw [not_or, not_exists] at hlive
  exact hlive

/-! ## Cells that are not linked -/

omit [DecidableEq C] in
/-- What happens to cells that are not linked does not concern the trees. -/
theorem linked_agree (h : Forest callback trees heap seqs loose)
    (hagree : Heap.AgreeOff [p] heap heap') (hp : ∀ c, p ∉ (seqs c).map Prod.fst) (c : C) :
    Linked True callback ⟨trees c, heap'⟩ (seqs c) := by
  refine (h.linked c).agree rfl hagree ?_
  intro q hq
  rw [List.mem_singleton.mp hq]
  exact hp c

omit [DecidableEq C] in
theorem alloc (h : Forest callback trees heap seqs loose) (hp : heap.get p = none)
    (n : Node P E S) : Forest callback trees (heap.set p n) seqs (p :: loose) := by
  obtain ⟨hloose, hlinked⟩ := h.not_mem_of_get_eq_none hp
  refine ⟨h.linked_agree (Heap.AgreeOff.set _ (by simp) _) hlinked, h.apart, ?_,
    List.nodup_cons.mpr ⟨hloose, h.loose_nodup⟩, ?_⟩
  · intro q
    have hlive := h.live q
    rw [Heap.get_set]
    by_cases hqp : q = p
    · simp [hqp]
    · simp [hqp, hlive]
  · intro q hq
    rcases List.mem_cons.mp hq with rfl | hq
    · exact hlinked
    · exact h.loose_apart q hq

omit [DecidableEq C] in
theorem write (h : Forest callback trees heap seqs loose) (hp : p ∈ loose) (n : Node P E S) :
    Forest callback trees (heap.set p n) seqs loose := by
  refine ⟨h.linked_agree (Heap.AgreeOff.set _ (by simp) _) (h.loose_apart p hp), h.apart, ?_,
    h.loose_nodup, h.loose_apart⟩
  intro q
  have hlive := h.live q
  rw [Heap.get_set]
  by_cases hqp : q = p
  · simp [hqp, hp]
  · simp [hqp, hlive]

omit [DecidableEq C] in
theorem free (h : Forest callback trees heap seqs (p :: loose)) :
    Forest callback trees (heap.free p) seqs loose := by
  obtain ⟨hp, hnodup⟩ := List.nodup_cons.mp h.loose_nodup
  have hlinked := h.loose_apart p (by simp)
  refine ⟨h.linked_agree (fun q hq => Heap.get_free_ne _ (by simpa using hq)) hlinked, h.apart, ?_,
    hnodup, fun q hq => h.loose_apart q (List.mem_cons_of_mem _ hq)⟩
  intro q
  have hlive := h.live q
  rw [Heap.get_free]
  by_cases hqp : q = p
  · subst hqp
    simpa [hp] using hlinked
  · simpa [hqp] using hlive

omit [DecidableEq C] in
/-- A cell that is not linked is dropped. -/
theorem discard (h : Forest callback trees heap seqs loose) (hp : ∀ c, p ∉ (seqs c).map Prod.fst) :
    Forest callback trees (heap.free p) seqs (loose.filter fun q => q ≠ p) := by
  refine ⟨h.linked_agree (fun q hq => Heap.get_free_ne _ (by simpa using hq)) hp, h.apart, ?_,
    h.loose_nodup.filter _, fun q hq => h.loose_apart q (List.mem_filter.mp hq).1⟩
  intro q
  have hlive := h.live q
  rw [Heap.get_free]
  by_cases hqp : q = p
  · subst hqp
    simpa using hp
  · simpa [hqp] using hlive

/-! ## Operations on one of the trees -/

/-- The forest after the tree of `c` has changed. -/
theorem update {mem' : TreeMem P E S} {seq' : List (P × E)} {loose' ps : List P}
    (h : Forest callback trees heap seqs loose) (hlinked : Linked True callback mem' seq')
    (hagree : Heap.AgreeOff ps heap mem'.heap) (hnodup : loose'.Nodup)
    (hps : ∀ q ∈ ps, q ∈ loose' ∨ q ∈ seq'.map Prod.fst)
    (hlive : ∀ q, (q ∈ loose' ∨ q ∈ seq'.map Prod.fst) ↔ q ∈ loose ∨ q ∈ (seqs c).map Prod.fst)
    (hget : ∀ q ∈ loose', (mem'.heap.get q).isSome)
    (hapart : ∀ q ∈ loose', q ∉ seq'.map Prod.fst) :
    Forest callback (Function.update trees c mem'.tree) mem'.heap (Function.update seqs c seq')
      loose' := by
  have hother : ∀ q, (q ∈ loose' ∨ q ∈ seq'.map Prod.fst) → ∀ c', c' ≠ c →
      q ∉ (seqs c').map Prod.fst := by
    intro q hq c' hne hmem
    rcases (hlive q).mp hq with hq | hq
    · exact h.loose_apart q hq c' hmem
    · exact hne (h.apart c' c q hmem hq)
  refine ⟨?_, ?_, ?_, hnodup, ?_⟩
  · intro c'
    by_cases hc : c' = c
    · subst hc
      simpa using hlinked
    · simp only [Function.update_of_ne hc]
      exact (h.linked c').agree rfl hagree fun q hq => hother q (hps q hq) c' hc
  · intro c₁ c₂ q h₁ h₂
    by_cases hc₁ : c₁ = c
    · by_cases hc₂ : c₂ = c
      · rw [hc₁, hc₂]
      · subst hc₁
        rw [Function.update_self] at h₁
        rw [Function.update_of_ne hc₂] at h₂
        exact absurd h₂ (hother q (Or.inr h₁) c₂ hc₂)
    · rw [Function.update_of_ne hc₁] at h₁
      by_cases hc₂ : c₂ = c
      · subst hc₂
        rw [Function.update_self] at h₂
        exact absurd h₁ (hother q (Or.inr h₂) c₁ hc₁)
      · rw [Function.update_of_ne hc₂] at h₂
        exact h.apart c₁ c₂ q h₁ h₂
  · intro q
    have hexists : (∃ c', q ∈ (Function.update seqs c seq' c').map Prod.fst) ↔
        q ∈ seq'.map Prod.fst ∨ ∃ c', c' ≠ c ∧ q ∈ (seqs c').map Prod.fst := by
      constructor
      · rintro ⟨c', hq⟩
        by_cases hc : c' = c
        · subst hc
          exact Or.inl (by simpa using hq)
        · exact Or.inr ⟨c', hc, by simpa [Function.update_of_ne hc] using hq⟩
      · rintro (hq | ⟨c', hc, hq⟩)
        · exact ⟨c, by simpa using hq⟩
        · exact ⟨c', by simpa [Function.update_of_ne hc] using hq⟩
    rw [hexists, ← or_assoc]
    by_cases hq : q ∈ loose' ∨ q ∈ seq'.map Prod.fst
    · refine iff_of_true ?_ (Or.inl hq)
      rcases hq with hq | hq
      · exact hget q hq
      · obtain ⟨x, hx, rfl⟩ := List.mem_map.mp hq
        obtain ⟨n, hn, -⟩ := hlinked.get hx
        simp [hn]
    · rw [hagree q fun hmem => hq (hps q hmem), h.live q]
      have hold := (hlive q).not.mp hq
      constructor
      · rintro (hloose | ⟨c', hmem⟩)
        · exact absurd (Or.inl hloose) hold
        · refine Or.inr ⟨c', ?_, hmem⟩
          rintro rfl
          exact hold (Or.inr hmem)
      · rintro (hnew | ⟨c', -, hmem⟩)
        · exact absurd hnew hq
        · exact Or.inr ⟨c', hmem⟩
  · intro q hq c'
    by_cases hc : c' = c
    · subst hc
      simpa using hapart q hq
    · rw [Function.update_of_ne hc]
      exact hother q (Or.inl hq) c' hc

/-- A tree is given up: its nodes stay where they are, but nothing links them. -/
theorem abandon (h : Forest callback trees heap seqs loose) (c : C) :
    Forest callback (Function.update trees c none) heap (Function.update seqs c [])
      ((seqs c).map Prod.fst ++ loose) := by
  have hnil : Linked True callback ⟨none, heap⟩ ([] : List (P × E)) :=
    ⟨nil, 0, ⟨rfl, Heap.holds_nil _, Heap.holds_nil _, List.nodup_nil⟩, rfl, fun _ => trivial, rfl⟩
  refine h.update hnil (Heap.AgreeOff.refl [] heap) ?_ (by simp) ?_ ?_ (by simp)
  · exact (h.linked c).nodup.append h.loose_nodup fun q hq hloose => h.loose_apart q hloose c hq
  · intro q
    rw [List.mem_append, List.map_nil, or_iff_left List.not_mem_nil, or_comm]
  · intro q hq
    rw [h.live q]
    rcases List.mem_append.mp hq with hq | hq
    · exact Or.inr ⟨c, hq⟩
    · exact Or.inl hq

variable [LawfulCallback callback]

theorem insert (h : Forest callback trees heap seqs (p :: loose)) (hn : heap.get p = some n)
    (hsummary : n.summary = callback.elementToSummary n.element) {le : E → E → Prop}
    (hcmp : Consistent callback.cmpElement le)
    (hsorted : (seqs c).Pairwise fun x y => le x.2 y.2) :
    Runs (Node.insert debug callback p) ⟨trees c, heap⟩ fun _ mem' =>
      Forest callback (Function.update trees c mem'.tree) mem'.heap
        (Function.update seqs c (insertSeq callback (p, n.element) (seqs c))) loose ∧
      ∀ q ∈ loose, mem'.heap.get q = heap.get q := by
  obtain ⟨hp, hnodup⟩ := List.nodup_cons.mp h.loose_nodup
  have hfresh := h.loose_apart p (by simp) c
  refine ((h.linked c).insert (fun _ => inferInstance) hcmp hsorted hn hfresh
    fun _ => hsummary).mono ?_
  rintro _ mem' ⟨hlinked, hagree⟩
  have hmem : ∀ q, q ∈ (insertSeq callback (p, n.element) (seqs c)).map Prod.fst ↔
      q = p ∨ q ∈ (seqs c).map Prod.fst := by
    intro q
    rw [(insertSeq_perm.map Prod.fst).mem_iff]
    simp
  have hkeep : ∀ q ∈ loose, mem'.heap.get q = heap.get q := by
    intro q hq
    refine hagree q ?_
    rw [List.mem_cons, not_or]
    exact ⟨fun heq => hp (heq ▸ hq), h.loose_apart q (List.mem_cons_of_mem _ hq) c⟩
  refine ⟨h.update hlinked hagree hnodup ?_ ?_ ?_ ?_, hkeep⟩
  · intro q hq
    exact Or.inr ((hmem q).mpr (List.mem_cons.mp hq))
  · intro q
    rw [hmem, List.mem_cons]
    tauto
  · intro q hq
    rw [hkeep q hq, h.live q]
    exact Or.inl (List.mem_cons_of_mem _ hq)
  · intro q hq
    rw [hmem, not_or]
    exact ⟨fun heq => hp (heq ▸ hq), h.loose_apart q (List.mem_cons_of_mem _ hq) c⟩

theorem remove (h : Forest callback trees heap seqs loose) (hp : p ∈ (seqs c).map Prod.fst) :
    Runs (Node.remove debug callback p) ⟨trees c, heap⟩ fun _ mem' =>
      Forest callback (Function.update trees c mem'.tree) mem'.heap
        (Function.update seqs c (removeSeq p (seqs c))) (p :: loose) ∧
      (∃ n, mem'.heap.get p = some n ∧ (p, n.element) ∈ seqs c) ∧
      ∀ q ∈ loose, mem'.heap.get q = heap.get q := by
  refine ((h.linked c).remove (fun _ => inferInstance) hp).mono ?_
  rintro _ mem' ⟨hlinked, ⟨n, hn, helement⟩, hagree⟩
  have hloose : p ∉ loose := fun hmem => h.loose_apart p hmem c hp
  have hkeep : ∀ q ∈ loose, mem'.heap.get q = heap.get q := fun q hq =>
    hagree q (h.loose_apart q hq c)
  refine ⟨h.update hlinked hagree (List.nodup_cons.mpr ⟨hloose, h.loose_nodup⟩) ?_ ?_ ?_ ?_,
    ⟨n, hn, helement⟩, hkeep⟩
  · intro q hq
    by_cases hqp : q = p
    · exact Or.inl (by simp [hqp])
    · exact Or.inr (mem_removeSeq.mpr ⟨hqp, hq⟩)
  · intro q
    rw [mem_removeSeq, List.mem_cons]
    by_cases hqp : q = p
    · subst hqp
      simp [hp]
    · simp [hqp]
  · intro q hq
    rcases List.mem_cons.mp hq with rfl | hq
    · simp [hn]
    · rw [hkeep q hq, h.live q]
      exact Or.inl hq
  · intro q hq
    rw [mem_removeSeq, not_and]
    rcases List.mem_cons.mp hq with rfl | hq
    · exact fun hne => absurd rfl hne
    · exact fun _ => h.loose_apart q hq c

theorem edit {pre post : List (P × E)} {e : E} (h : Forest callback trees heap seqs loose)
    (hseq : seqs c = pre ++ (p, e) :: post) {f : Node P E S → Node P E S} (e' : E)
    (hf : ∀ n, n.element = e → f n = { n with element := e' })
    (hsummary : callback.elementToSummary e' = callback.elementToSummary e) :
    Runs (modifyNode p f) ⟨trees c, heap⟩ fun _ mem' =>
      Forest callback (Function.update trees c mem'.tree) mem'.heap
        (Function.update seqs c (pre ++ (p, e') :: post)) loose := by
  have hlinked := h.linked c
  rw [hseq] at hlinked
  refine (hlinked.edit e' hf hsummary).mono ?_
  rintro _ mem' ⟨hlinked', hagree⟩
  have hkeys : (pre ++ (p, e') :: post).map Prod.fst = (seqs c).map Prod.fst := by simp [hseq]
  have hp : p ∈ (seqs c).map Prod.fst := by simp [hseq]
  refine h.update hlinked' hagree h.loose_nodup ?_ ?_ ?_ ?_
  · intro q hq
    rw [hkeys, List.mem_singleton.mp hq]
    exact Or.inr hp
  · intro q
    rw [hkeys]
  · intro q hq
    rw [hagree q fun hmem => h.loose_apart q hq c (List.mem_singleton.mp hmem ▸ hp), h.live q]
    exact Or.inl hq
  · intro q hq
    rw [hkeys]
    exact h.loose_apart q hq c

omit [DecidableEq C] [LawfulCallback callback] in
/-- Where every linked node has an owner that names its tree, a tree links the cells that it
owns. -/
theorem valid (h : Forest callback trees heap seqs []) (owner : P → Option C)
    (howner : ∀ c p, p ∈ (seqs c).map Prod.fst → owner p = some c) (c : C) :
    Valid callback ⟨trees c, heap⟩ ((seqs c).map Prod.fst) ∧
      ∀ p, p ∈ (seqs c).map Prod.fst ↔ (heap.get p).isSome ∧ owner p = some c := by
  refine ⟨(h.linked c).valid fun p => Iff.rfl, fun p => ⟨fun hp => ?_, ?_⟩⟩
  · exact ⟨(h.live p).mpr (Or.inr ⟨c, hp⟩), howner c p hp⟩
  · rintro ⟨hlive, hp⟩
    obtain ⟨c', hc'⟩ := ((h.live p).mp hlive).resolve_left List.not_mem_nil
    obtain rfl : c = c' := Option.some.inj (hp.symm.trans (howner c' p hc'))
    exact hc'

omit [DecidableEq C] [LawfulCallback callback] in
/-- An empty tree is one without a root. -/
theorem root_eq_none (h : Forest callback trees heap seqs loose) (c : C) :
    trees c = none ↔ seqs c = [] := by
  have hinOrder := (h.linked c).inOrder
  constructor
  · intro hnone
    rw [hnone] at hinOrder
    exact hinOrder.unique .nil
  · intro hnil
    rw [hnil] at hinOrder
    generalize hxs : ([] : List (P × E)) = xs at hinOrder
    show (⟨trees c, heap⟩ : TreeMem P E S).tree = none
    generalize (⟨trees c, heap⟩ : TreeMem P E S).tree = link at hinOrder ⊢
    cases hinOrder with
    | nil => rfl
    | node => simp at hxs

end Forest

/-! ## Sorted trees as sets of entries

Where the order of equal keys does not matter, a tree is the set of its entries. -/

/-- The tree of `c` links the entries with `entries c`, sorted by `key`. -/
def Indexed {K : Type} [LE K] (callback : Callback E S) (key : E → K) (trees : C → Option P)
    (heap : Heap P (Node P E S)) (entries : C → P × E → Prop) (loose : List P) : Prop :=
  ∃ seqs, Forest callback trees heap seqs loose ∧
    ∀ c, ((seqs c).Pairwise fun x y => key x.2 ≤ key y.2) ∧ ∀ x, x ∈ seqs c ↔ entries c x

namespace Indexed
variable {K : Type} [LE K] {debug : Bool} {callback : Callback E S} {key : E → K}
  {trees : C → Option P} {heap : Heap P (Node P E S)} {entries entries' : C → P × E → Prop}
  {loose : List P} {c : C} {p : P} {n : Node P E S} {e : E}

section Cells

omit [DecidableEq C]

theorem empty : Indexed callback key (fun _ : C => (none : Option P)) .empty
    (fun _ _ => False) [] :=
  ⟨fun _ => [], Forest.empty, by simp⟩

theorem congr (h : Indexed callback key trees heap entries loose)
    (hiff : ∀ c x, entries c x ↔ entries' c x) :
    Indexed callback key trees heap entries' loose := by
  have heq : entries = entries' := by
    funext c x
    exact propext (hiff c x)
  exact heq ▸ h

theorem alloc (h : Indexed callback key trees heap entries loose) (hp : heap.get p = none)
    (n : Node P E S) : Indexed callback key trees (heap.set p n) entries (p :: loose) := by
  obtain ⟨seqs, hforest, hseqs⟩ := h
  exact ⟨seqs, hforest.alloc hp n, hseqs⟩

theorem write (h : Indexed callback key trees heap entries loose) (hp : p ∈ loose)
    (n : Node P E S) : Indexed callback key trees (heap.set p n) entries loose := by
  obtain ⟨seqs, hforest, hseqs⟩ := h
  exact ⟨seqs, hforest.write hp n, hseqs⟩

theorem perm {loose' : List P} (h : Indexed callback key trees heap entries loose)
    (hperm : loose.Perm loose') : Indexed callback key trees heap entries loose' := by
  obtain ⟨seqs, hforest, hseqs⟩ := h
  refine ⟨seqs, ⟨hforest.linked, hforest.apart, fun p => ?_, hperm.nodup_iff.mp hforest.loose_nodup,
    fun p hp => hforest.loose_apart p (hperm.mem_iff.mpr hp)⟩, hseqs⟩
  rw [hforest.live p, hperm.mem_iff]

theorem free (h : Indexed callback key trees heap entries (p :: loose)) :
    Indexed callback key trees (heap.free p) entries loose := by
  obtain ⟨seqs, hforest, hseqs⟩ := h
  exact ⟨seqs, hforest.free, hseqs⟩

theorem discard (h : Indexed callback key trees heap entries loose)
    (hp : ∀ c e, ¬ entries c (p, e)) :
    Indexed callback key trees (heap.free p) entries (loose.filter fun q => q ≠ p) := by
  obtain ⟨seqs, hforest, hseqs⟩ := h
  refine ⟨seqs, hforest.discard fun c hmem => ?_, hseqs⟩
  obtain ⟨⟨q, e⟩, hx, rfl⟩ := List.mem_map.mp hmem
  exact hp c e (((hseqs c).2 _).mp hx)

/-- The links lead to the entries. -/
theorem reached_iff (h : Indexed callback key trees heap entries loose) :
    Reached ⟨trees c, heap⟩ p ↔ ∃ e, entries c (p, e) := by
  obtain ⟨seqs, hforest, hseqs⟩ := h
  rw [(hforest.linked c).reached_iff, List.mem_map]
  constructor
  · rintro ⟨⟨q, e⟩, hx, rfl⟩
    exact ⟨e, ((hseqs c).2 _).mp hx⟩
  · rintro ⟨e, he⟩
    exact ⟨(p, e), ((hseqs c).2 _).mpr he, rfl⟩

/-- The cell of an entry. -/
theorem get (h : Indexed callback key trees heap entries loose) (he : entries c (p, e)) :
    ∃ n, heap.get p = some n ∧ n.element = e := by
  obtain ⟨seqs, hforest, hseqs⟩ := h
  exact hforest.get_isSome (((hseqs c).2 _).mpr he)

/-- A live cell is that of an entry. -/
theorem get_isSome (h : Indexed callback key trees heap entries loose) (hloose : p ∉ loose) :
    (heap.get p).isSome ↔ ∃ c e, entries c (p, e) := by
  obtain ⟨seqs, hforest, hseqs⟩ := h
  rw [hforest.live p]
  simp only [hloose, false_or, List.mem_map]
  constructor
  · rintro ⟨c, ⟨q, e⟩, hx, rfl⟩
    exact ⟨c, e, ((hseqs c).2 _).mp hx⟩
  · rintro ⟨c, e, he⟩
    exact ⟨c, (p, e), ((hseqs c).2 _).mpr he, rfl⟩

theorem get_eq_none (h : Indexed callback key trees heap entries loose) (hloose : p ∉ loose)
    (hp : ∀ c e, ¬ entries c (p, e)) : heap.get p = none := by
  have hsome := (h.get_isSome hloose).not.mpr (by simpa using hp)
  simpa using hsome

end Cells

/-- The set of entries after the tree of `c` has changed. -/
theorem of_update {tree : Option P} {heap' : Heap P (Node P E S)} {seqs : C → List (P × E)}
    {seq' : List (P × E)} {set : P × E → Prop}
    (h : Forest callback (Function.update trees c tree) heap' (Function.update seqs c seq') loose)
    (hseqs : ∀ c, ((seqs c).Pairwise fun x y => key x.2 ≤ key y.2) ∧
      ∀ x, x ∈ seqs c ↔ entries c x)
    (hsorted : seq'.Pairwise fun x y => key x.2 ≤ key y.2) (hmem : ∀ x, x ∈ seq' ↔ set x) :
    Indexed callback key (Function.update trees c tree) heap' (Function.update entries c set)
      loose := by
  refine ⟨_, h, fun c' => ?_⟩
  by_cases hc : c' = c
  · subst hc
    simpa only [Function.update_self] using ⟨hsorted, hmem⟩
  · simpa only [Function.update_of_ne hc] using hseqs c'

theorem abandon (h : Indexed callback key trees heap entries loose) (c : C) :
    ∃ loose', Indexed callback key (Function.update trees c none) heap
        (Function.update entries c fun _ => False) loose' ∧
      ∀ q ∈ loose', q ∈ loose ∨ ∃ e, entries c (q, e) := by
  obtain ⟨seqs, hforest, hseqs⟩ := h
  refine ⟨_, of_update (hforest.abandon c) hseqs List.Pairwise.nil (by simp), fun q hq => ?_⟩
  rcases List.mem_append.mp hq with hq | hq
  · obtain ⟨⟨q, e⟩, hx, rfl⟩ := List.mem_map.mp hq
    exact Or.inr ⟨e, ((hseqs c).2 _).mp hx⟩
  · exact Or.inl hq

variable [LawfulCallback callback]

theorem insert (debug : Bool) (h : Indexed callback key trees heap entries (p :: loose))
    (hkey : Consistent callback.cmpElement fun a b => key a ≤ key b) (hn : heap.get p = some n)
    (hsummary : n.summary = callback.elementToSummary n.element) :
    Runs (Node.insert debug callback p) ⟨trees c, heap⟩ fun _ mem' =>
      Indexed callback key (Function.update trees c mem'.tree) mem'.heap
        (Function.update entries c fun x => x = (p, n.element) ∨ entries c x) loose ∧
      ∀ q ∈ loose, mem'.heap.get q = heap.get q := by
  obtain ⟨seqs, hforest, hseqs⟩ := h
  refine (hforest.insert hn hsummary hkey (hseqs c).1).mono ?_
  rintro _ mem' ⟨hforest', hkeep⟩
  refine ⟨of_update hforest' hseqs (insertSeq_sorted hkey (hseqs c).1) fun x => ?_, hkeep⟩
  rw [insertSeq_perm.mem_iff, List.mem_cons, (hseqs c).2]

theorem remove (debug : Bool) (h : Indexed callback key trees heap entries loose)
    (he : entries c (p, e)) :
    Runs (Node.remove debug callback p) ⟨trees c, heap⟩ fun _ mem' =>
      Indexed callback key (Function.update trees c mem'.tree) mem'.heap
        (Function.update entries c fun x => entries c x ∧ x.1 ≠ p) (p :: loose) ∧
      ∃ n, mem'.heap.get p = some n ∧ n.element = e := by
  obtain ⟨seqs, hforest, hseqs⟩ := h
  have hx := ((hseqs c).2 _).mpr he
  refine (hforest.remove (List.mem_map_of_mem hx)).mono ?_
  rintro _ mem' ⟨hforest', ⟨n, hn, helement⟩, -⟩
  refine ⟨of_update hforest' hseqs ((hseqs c).1.filter _) fun x => ?_, n, hn, ?_⟩
  · simp only [removeSeq, List.mem_filter, (hseqs c).2, decide_eq_true_eq]
  · have hinj := List.inj_on_of_nodup_map (hforest.linked c).nodup helement hx rfl
    exact congrArg Prod.snd hinj

theorem edit (h : Indexed callback key trees heap entries loose) (he : entries c (p, e))
    {f : Node P E S → Node P E S} (e' : E)
    (hf : ∀ n, n.element = e → f n = { n with element := e' })
    (hsummary : callback.elementToSummary e' = callback.elementToSummary e)
    (hkey : key e' = key e) :
    Runs (modifyNode p f) ⟨trees c, heap⟩ fun _ mem' =>
      Indexed callback key (Function.update trees c mem'.tree) mem'.heap
        (Function.update entries c fun x => x = (p, e') ∨ entries c x ∧ x.1 ≠ p) loose := by
  obtain ⟨seqs, hforest, hseqs⟩ := h
  obtain ⟨pre, post, hseq⟩ := List.append_of_mem (((hseqs c).2 _).mpr he)
  have hnodup := (hforest.linked c).nodup
  have hsorted := (hseqs c).1
  rw [hseq] at hnodup hsorted
  refine (hforest.edit hseq e' hf hsummary).mono ?_
  rintro _ mem' hforest'
  refine of_update hforest' hseqs ?_ fun x => ?_
  · simpa only [List.pairwise_append, List.pairwise_cons, List.mem_cons, forall_eq_or_imp, hkey]
      using hsorted
  · rw [← (hseqs c).2, hseq]
    have hrest : ∀ y ∈ pre ++ post, y.1 ≠ p := by
      intro y hy heq
      simp only [List.map_append, List.map_cons, List.nodup_append', List.nodup_cons] at hnodup
      obtain ⟨-, ⟨hpost, -⟩, hdisjoint⟩ := hnodup
      rcases List.mem_append.mp hy with hy | hy
      · exact hdisjoint (List.mem_map_of_mem hy) (by simp [heq])
      · exact hpost (heq ▸ List.mem_map_of_mem hy)
    simp only [List.mem_append, List.mem_cons] at hrest ⊢
    constructor
    · rintro (hx | rfl | hx)
      · exact Or.inr ⟨Or.inl hx, hrest x (Or.inl hx)⟩
      · exact Or.inl rfl
      · exact Or.inr ⟨Or.inr (Or.inr hx), hrest x (Or.inr hx)⟩
    · rintro (rfl | ⟨hx | rfl | hx, hne⟩)
      · exact Or.inr (Or.inl rfl)
      · exact Or.inl hx
      · exact absurd rfl hne
      · exact Or.inr (Or.inr hx)

end Indexed

end Interlock.RbTree
