import Mathlib

/-!
# Finite memories and programs that may fault

A `Heap` maps the addresses of the live cells to their contents.  Programs over a
state `σ` are written in `EStateM Fault σ`, so that a program that stops at a
fault still shows the state in which it stopped.

Assertions about a heap are lists of cells: `Holds h cells` says that every
listed cell is live with the listed contents, and a list without repeated
addresses plays the role of a separating conjunction.  `AgreeOff ps h h'` is the
frame condition: outside `ps` nothing has changed.
-/

namespace Interlock.Memory

/-- The ways in which a program can stop other than by returning. -/
inductive Fault where
  /-- A panic with the given message. -/
  | panic (message : String)
  /-- A panic inside a section that must not unwind: the process stops. -/
  | abort
  /-- A read or write through a pointer to a dead cell. -/
  | dangling
  /-- Code that was promised to be unreachable was reached. -/
  | undefinedBehavior
  /-- A loop made more iterations than there are cells in the memory. -/
  | diverge
  deriving DecidableEq, Repr

/-! ## Running programs

`Runs m s post` is total correctness from one state: `m` started in `s` returns, with a result and
a final state that satisfy `post`. -/

section Run
variable {σ α β : Type}

def Runs (m : EStateM Fault σ α) (s : σ) (post : α → σ → Prop) : Prop :=
  ∃ a t, m s = .ok a t ∧ post a t

/-- `debug_assert!`: checked only when debug assertions are compiled in. -/
def debugAssert (debug : Bool) (condition : Bool) (message : String) : EStateM Fault σ Unit :=
  if debug && !condition then throw (.panic message) else pure ()

/-- What `debug_assert_eq!` says, up to the two values. -/
def leftEqRight : String := "assertion `left == right` failed"

/-- What `debug_assert_ne!` says, up to the two values. -/
def leftNeRight : String := "assertion `left != right` failed"

/-- `unwrap` and `expect`. -/
def expect (message : String) : Option α → EStateM Fault σ α
  | some a => pure a
  | none => throw (.panic message)

variable {m : EStateM Fault σ α} {f : α → EStateM Fault σ β} {s : σ}

theorem Runs.mono {post post' : α → σ → Prop} (h : Runs m s post)
    (himp : ∀ a t, post a t → post' a t) : Runs m s post' := by
  obtain ⟨a, t, hrun, hpost⟩ := h
  exact ⟨a, t, hrun, himp a t hpost⟩

theorem runs_of_eq {a : α} {t : σ} {post : α → σ → Prop} (h : m s = .ok a t) :
    Runs m s post ↔ post a t := by
  simp [Runs, h]

@[simp] theorem runs_bind {post : β → σ → Prop} :
    Runs (m >>= f) s post ↔ Runs m s fun a t => Runs (f a) t post := by
  simp only [Runs, bind, EStateM.bind]
  cases m s <;> simp

/-- The rule of sequence. -/
theorem Runs.bind {mid : α → σ → Prop} {post : β → σ → Prop} (h : Runs m s mid)
    (hnext : ∀ a t, mid a t → Runs (f a) t post) : Runs (m >>= f) s post :=
  runs_bind.mpr (h.mono hnext)

@[simp] theorem runs_map {g : α → β} {post : β → σ → Prop} :
    Runs (g <$> m) s post ↔ Runs m s fun a t => post (g a) t := by
  simp only [Runs, Functor.map, EStateM.map]
  cases m s <;> simp

@[simp] theorem runs_pure {a : α} {post : α → σ → Prop} : Runs (pure a) s post ↔ post a s :=
  runs_of_eq rfl

@[simp] theorem runs_get {post : σ → σ → Prop} : Runs get s post ↔ post s s := runs_of_eq rfl

@[simp] theorem runs_modify {g : σ → σ} {post : PUnit → σ → Prop} :
    Runs (modify g) s post ↔ post ⟨⟩ (g s) := runs_of_eq rfl

@[simp] theorem runs_throw {e : Fault} {post : α → σ → Prop} :
    Runs (throw e : EStateM Fault σ α) s post ↔ False := by
  simp only [Runs, iff_false]
  rintro ⟨a, t, hrun, -⟩
  cases hrun

@[simp] theorem runs_debugAssert {debug condition : Bool} {message : String}
    {post : Unit → σ → Prop} : Runs (debugAssert debug condition message) s post ↔
      (debug = true → condition = true) ∧ post () s := by
  cases debug <;> cases condition <;> simp [debugAssert]

/-- Run a program on a part of the state. -/
def zoom {τ : Type} (get : σ → τ) (set : τ → σ → σ) (m : EStateM Fault τ α) : EStateM Fault σ α :=
  fun s =>
    match m (get s) with
    | .ok a t => .ok a (set t s)
    | .error fault t => .error fault (set t s)

@[simp] theorem runs_zoom {τ : Type} {get : σ → τ} {set : τ → σ → σ} {m : EStateM Fault τ α}
    {post : α → σ → Prop} :
    Runs (zoom get set m) s post ↔ Runs m (get s) fun a t => post a (set t s) := by
  simp only [Runs, zoom]
  cases m (get s) <;> simp

/-- A section that must not unwind: a panic inside it stops the process. -/
def abortOnUnwind (m : EStateM Fault σ α) : EStateM Fault σ α := fun s =>
  match m s with
  | .error (.panic _) t => .error .abort t
  | result => result

@[simp] theorem runs_abortOnUnwind {post : α → σ → Prop} :
    Runs (abortOnUnwind m) s post ↔ Runs m s post := by
  simp only [Runs, abortOnUnwind]
  cases m s with
  | ok a t => simp
  | error fault t => cases fault <;> simp

@[simp] theorem runs_expect {message : String} {a? : Option α} {post : α → σ → Prop} :
    Runs (expect message a? : EStateM Fault σ α) s post ↔ ∃ a, a? = some a ∧ post a s := by
  cases a? <;> simp [expect]

/-! `Panics m s message post`: `m` started in `s` panics with `message`, and leaves a state that
satisfies `post`. -/

def Panics (m : EStateM Fault σ α) (s : σ) (message : String) (post : σ → Prop) : Prop :=
  ∃ t, m s = .error (.panic message) t ∧ post t

variable {message : String}

@[simp] theorem panics_throw {post : σ → Prop} :
    Panics (throw (.panic message) : EStateM Fault σ α) s message post ↔ post s := by
  simp [Panics, throw, throwThe, MonadExceptOf.throw, EStateM.throw]

@[simp] theorem panics_map {g : α → β} {post : σ → Prop} :
    Panics (g <$> m) s message post ↔ Panics m s message post := by
  simp only [Panics, Functor.map, EStateM.map]
  cases m s <;> simp

theorem Panics.bind {post : σ → Prop} (h : Panics m s message post) :
    Panics (m >>= f) s message post := by
  obtain ⟨t, hrun, hpost⟩ := h
  refine ⟨t, ?_, hpost⟩
  simp only [Bind.bind, EStateM.bind, hrun]

/-- A panic after something that returns. -/
theorem Runs.panics {mid : α → σ → Prop} {post : σ → Prop} (h : Runs m s mid)
    (hnext : ∀ a t, mid a t → Panics (f a) t message post) : Panics (m >>= f) s message post := by
  obtain ⟨a, t, hrun, hmid⟩ := h
  obtain ⟨t', hrun', hpost⟩ := hnext a t hmid
  refine ⟨t', ?_, hpost⟩
  simp only [Bind.bind, EStateM.bind, hrun, hrun']

theorem not_panics_bind {post : σ → Prop} (h : ¬ Panics m s message post)
    (hnext : ∀ a t, ¬ Panics (f a) t message post) : ¬ Panics (m >>= f) s message post := by
  rintro ⟨t, hrun, hpost⟩
  simp only [Bind.bind, EStateM.bind] at hrun
  cases hm : m s with
  | ok a t' =>
      rw [hm] at hrun
      exact hnext a t' ⟨t, hrun, hpost⟩
  | error fault t' =>
      rw [hm] at hrun
      cases hrun
      exact h ⟨t, hm, hpost⟩

theorem not_panics_pure {a : α} {post : σ → Prop} :
    ¬ Panics (pure a : EStateM Fault σ α) s message post := by
  rintro ⟨t, hrun, -⟩
  cases hrun

theorem not_panics_modify {g : σ → σ} {post : σ → Prop} :
    ¬ Panics (modify g : EStateM Fault σ PUnit) s message post := by
  rintro ⟨t, hrun, -⟩
  cases hrun

/-- A panic does not get out of a section that must not unwind. -/
theorem not_panics_abortOnUnwind {post : σ → Prop} :
    ¬ Panics (abortOnUnwind m) s message post := by
  rintro ⟨t, hrun, -⟩
  unfold abortOnUnwind at hrun
  split at hrun
  · cases hrun
  · rename_i hne
    exact hne message t hrun

theorem Panics.mono {post post' : σ → Prop} (h : Panics m s message post)
    (himp : ∀ t, post t → post' t) : Panics m s message post' := by
  obtain ⟨t, hrun, hpost⟩ := h
  exact ⟨t, hrun, himp t hpost⟩

/-- What returns does not panic. -/
theorem Runs.not_panics {post : α → σ → Prop} {post' : σ → Prop} (h : Runs m s post) :
    ¬ Panics m s message post' := by
  obtain ⟨a, t, hrun, -⟩ := h
  rintro ⟨t', hrun', -⟩
  rw [hrun] at hrun'
  cases hrun'

/-! `Below m m'`: where `m` returns, `m'` returns the same. -/

def Below (m m' : EStateM Fault σ α) : Prop := ∀ s a t, m s = .ok a t → m' s = .ok a t

theorem Below.refl (m : EStateM Fault σ α) : Below m m := fun _ _ _ h => h

theorem below_throw (e : Fault) (m : EStateM Fault σ α) : Below (throw e) m :=
  fun _ _ _ h => nomatch h

theorem below_debugAssert (debug condition : Bool) (message : String) :
    Below (debugAssert true condition message : EStateM Fault σ Unit)
      (debugAssert debug condition message) := by
  intro s a t h
  cases condition with
  | false => exact nomatch h
  | true => cases debug <;> exact h

theorem Below.bind {m' : EStateM Fault σ α} {f' : α → EStateM Fault σ β} (h : Below m m')
    (hf : ∀ a, Below (f a) (f' a)) : Below (m >>= f) (m' >>= f') := by
  intro s b t hrun
  simp only [Bind.bind, EStateM.bind] at hrun ⊢
  cases hm : m s with
  | error fault t' => rw [hm] at hrun; cases hrun
  | ok a t' =>
      rw [hm] at hrun
      rw [h s a t' hm]
      exact hf a t' b t hrun

theorem Below.bind_right {f' : α → EStateM Fault σ β} (hf : ∀ a, Below (f a) (f' a)) :
    Below (m >>= f) (m >>= f') := (Below.refl m).bind hf

/-- Two programs that return, below a third one. -/
theorem Below.eq {m₁ m₂ m' : EStateM Fault σ α} (h₁ : Below m₁ m') (h₂ : Below m₂ m')
    {post₁ post₂ : α → σ → Prop} (hrun₁ : Runs m₁ s post₁) (hrun₂ : Runs m₂ s post₂) :
    m₁ s = m₂ s := by
  obtain ⟨a₁, t₁, hok₁, -⟩ := hrun₁
  obtain ⟨a₂, t₂, hok₂, -⟩ := hrun₂
  have heq := (h₁ s a₁ t₁ hok₁).symm.trans (h₂ s a₂ t₂ hok₂)
  rw [hok₁, hok₂, heq]

/-- What a program returns and the state that it leaves behind, if it returns. -/
def returned (m : EStateM Fault σ α) (s : σ) : Option (α × σ) :=
  match m s with
  | .ok a t => some (a, t)
  | .error _ _ => none

theorem eq_ok_of_returned {x : α × σ} (h : returned m s = some x) : m s = .ok x.1 x.2 := by
  unfold returned at h
  split at h
  · next hm =>
      obtain rfl := Option.some.inj h
      exact hm
  · cases h

end Run

/-! ## Two programs side by side

`Agree r x y`: two programs have returned the same, or have stopped at the same fault, in states
that `r` relates. -/

section Agree
variable {σ τ κ α β : Type} {r : σ → τ → Prop}

inductive Agree (r : σ → τ → Prop) :
    EStateM.Result Fault σ α → EStateM.Result Fault τ α → Prop where
  | ok (a : α) {s : σ} {t : τ} (h : r s t) : Agree r (.ok a s) (.ok a t)
  | error (fault : Fault) {s : σ} {t : τ} (h : r s t) : Agree r (.error fault s) (.error fault t)

theorem Agree.bind {m : EStateM Fault σ α} {m' : EStateM Fault τ α} {f : α → EStateM Fault σ β}
    {f' : α → EStateM Fault τ β} {s : σ} {t : τ} (h : Agree r (m s) (m' t))
    (hnext : ∀ a s t, r s t → Agree r (f a s) (f' a t)) :
    Agree r ((m >>= f) s) ((m' >>= f') t) := by
  show Agree r (EStateM.bind m f s) (EStateM.bind m' f' t)
  unfold EStateM.bind
  revert h
  generalize m s = x
  generalize m' t = y
  intro h
  cases h with
  | ok a hst => exact hnext a _ _ hst
  | error fault hst => exact .error fault hst

/-- Perform the commands one after the other, whether those before have returned or not. -/
def session (perform : κ → EStateM Fault σ α) : List κ → σ → List (Except Fault α) × σ
  | [], s => ([], s)
  | command :: commands, s =>
      match perform command s with
      | .ok a t => ((session perform commands t).1.cons (.ok a), (session perform commands t).2)
      | .error fault t =>
          ((session perform commands t).1.cons (.error fault), (session perform commands t).2)

/-- Programs that agree on each command agree on all of them. -/
theorem session_agree {perform : κ → EStateM Fault σ α} {perform' : κ → EStateM Fault τ α}
    {commands : List κ} (hstep : ∀ command ∈ commands, ∀ s t, r s t →
      Agree r (perform command s) (perform' command t)) {s : σ} {t : τ} (h : r s t) :
    (session perform commands s).1 = (session perform' commands t).1 ∧
      r (session perform commands s).2 (session perform' commands t).2 := by
  induction commands generalizing s t with
  | nil => exact ⟨rfl, h⟩
  | cons command commands ih =>
      have ih := fun {s t} => @ih (fun c hc => hstep c (List.mem_cons_of_mem _ hc)) s t
      have hagree := hstep command List.mem_cons_self s t h
      unfold session
      revert hagree
      generalize perform command s = x
      generalize perform' command t = y
      intro hagree
      cases hagree with
      | ok a hst => exact ⟨congrArg _ (ih hst).1, (ih hst).2⟩
      | error fault hst => exact ⟨congrArg _ (ih hst).1, (ih hst).2⟩

theorem session_cons_ok {perform : κ → EStateM Fault σ α} {command : κ}
    {commands : List κ} {s s' : σ}
    {a : α} (h : perform command s = .ok a s') : session perform (command :: commands) s =
      (.ok a :: (session perform commands s').1, (session perform commands s').2) := by
  rw [session, h]

/-- The commands that `select` selects answer as they do without the others, which change nothing
that `r` relates.  No command fails. -/
theorem session_filter {perform : κ → EStateM Fault σ α} {perform' : κ → EStateM Fault τ α}
    {select : κ → Bool} {commands : List κ}
    (hselected : ∀ command ∈ commands, select command = true → ∀ s t a s', r s t →
      perform command s = .ok a s' → ∃ t', perform' command t = .ok a t' ∧ r s' t')
    (hothers : ∀ command ∈ commands, select command = false → ∀ s t a s', r s t →
      perform command s = .ok a s' → r s' t) {s : σ} {t : τ} (h : r s t)
    (hok : ∀ answer ∈ (session perform commands s).1, ∃ a, answer = .ok a) :
    ((commands.zip (session perform commands s).1).filter fun x => select x.1).map Prod.snd =
        (session perform' (commands.filter select) t).1 ∧
      r (session perform commands s).2 (session perform' (commands.filter select) t).2 := by
  induction commands generalizing s t with
  | nil => exact ⟨rfl, h⟩
  | cons command commands ih =>
      have ih := fun {s t} => @ih (fun c hc => hselected c (List.mem_cons_of_mem _ hc))
        (fun c hc => hothers c (List.mem_cons_of_mem _ hc)) s t
      cases hrun : perform command s with
      | error fault s' =>
          have hfirst : Except.error fault ∈ (session perform (command :: commands) s).1 := by
            rw [session, hrun]
            exact List.mem_cons_self
          obtain ⟨a, ha⟩ := hok _ hfirst
          cases ha
      | ok a s' =>
          rw [session_cons_ok hrun] at hok ⊢
          have hok := fun answer hmem => hok answer (List.mem_cons_of_mem _ hmem)
          rw [List.zip_cons_cons]
          cases hselect : select command with
          | true =>
              obtain ⟨t', hrun', h'⟩ := hselected command List.mem_cons_self hselect s t a s' h hrun
              obtain ⟨hanswers, hr⟩ := ih h' hok
              simp only [List.filter_cons, hselect, if_true, List.map_cons, session_cons_ok hrun']
              exact ⟨congrArg _ hanswers, hr⟩
          | false =>
              have h' := hothers command List.mem_cons_self hselect s t a s' h hrun
              simp only [List.filter_cons, hselect, Bool.false_eq_true, if_false]
              exact ih h' hok

end Agree

/-! ## Heaps -/

/-- A finite memory, listing its live cells. -/
structure Heap (P N : Type) where
  cells : List (P × N)

namespace Heap
variable {P N : Type} [DecidableEq P]

/-- The memory without live cells. -/
def empty : Heap P N := ⟨[]⟩

/-- The contents of a cell, if it is live. -/
def get (h : Heap P N) (p : P) : Option N := h.cells.lookup p

/-- Write a cell, making it live if it was not. -/
def set (h : Heap P N) (p : P) (n : N) : Heap P N :=
  ⟨(p, n) :: h.cells.filter fun cell => cell.1 ≠ p⟩

/-- End the life of a cell. -/
def free (h : Heap P N) (p : P) : Heap P N := ⟨h.cells.filter fun cell => cell.1 ≠ p⟩

/-- The number of cells, a bound for every loop along distinct cells. -/
def size (h : Heap P N) : ℕ := h.cells.length

@[simp] theorem get_empty (p : P) : (empty : Heap P N).get p = none := rfl

theorem lookup_cons_ite (a q : P) (n : N) (rest : List (P × N)) :
    ((a, n) :: rest).lookup q = if q = a then some n else rest.lookup q := by
  by_cases hqa : q = a
  · simp [hqa]
  · have hbeq : (q == a) = false := by simpa using hqa
    simp [List.lookup_cons, hbeq, hqa]

theorem lookup_filter_ne (cells : List (P × N)) (p q : P) :
    (cells.filter fun cell => cell.1 ≠ p).lookup q =
      if q = p then none else cells.lookup q := by
  induction cells with
  | nil => simp
  | cons cell rest ih =>
      obtain ⟨a, n⟩ := cell
      by_cases hap : a = p
      · rw [List.filter_cons_of_neg (by simpa using hap), ih, lookup_cons_ite, hap]
        split <;> rfl
      · rw [List.filter_cons_of_pos (by simpa using hap), lookup_cons_ite, lookup_cons_ite, ih]
        by_cases hqa : q = a
        · rw [if_pos hqa, if_pos hqa, if_neg (hqa ▸ hap)]
        · rw [if_neg hqa, if_neg hqa]

@[simp] theorem get_set_self (h : Heap P N) (p : P) (n : N) : (h.set p n).get p = some n := by
  simp [get, set]

theorem get_set_ne (h : Heap P N) {p q : P} (n : N) (hne : q ≠ p) :
    (h.set p n).get q = h.get q := by
  rw [get, set, lookup_cons_ite, if_neg hne, lookup_filter_ne, if_neg hne, get]

theorem get_set (h : Heap P N) (p q : P) (n : N) :
    (h.set p n).get q = if q = p then some n else h.get q := by
  by_cases hqp : q = p
  · subst hqp; simp
  · rw [if_neg hqp, get_set_ne h n hqp]

theorem get_free (h : Heap P N) (p q : P) :
    (h.free p).get q = if q = p then none else h.get q :=
  lookup_filter_ne h.cells p q

@[simp] theorem get_free_self (h : Heap P N) (p : P) : (h.free p).get p = none := by
  simp [get_free]

theorem get_free_ne (h : Heap P N) {p q : P} (hne : q ≠ p) : (h.free p).get q = h.get q := by
  simp [get_free, hne]

theorem mem_keys_of_get {h : Heap P N} {p : P} {n : N} (hget : h.get p = some n) :
    p ∈ h.cells.map Prod.fst := by
  obtain ⟨cells⟩ := h
  simp only [get] at hget
  induction cells with
  | nil => simp at hget
  | cons cell rest ih =>
      rw [lookup_cons_ite] at hget
      by_cases heq : p = cell.1
      · simp [heq]
      · rw [if_neg heq] at hget
        exact List.mem_cons_of_mem _ (ih hget)

/-! ### Assertions -/

/-- Every listed cell is live with the listed contents. -/
def Holds (h : Heap P N) (cells : List (P × N)) : Prop :=
  ∀ cell ∈ cells, h.get cell.1 = some cell.2

@[simp] theorem holds_nil (h : Heap P N) : h.Holds [] := by simp [Holds]

@[simp] theorem holds_cons {h : Heap P N} {p : P} {n : N} {cells : List (P × N)} :
    h.Holds ((p, n) :: cells) ↔ h.get p = some n ∧ h.Holds cells := by
  simp [Holds]

@[simp] theorem holds_append {h : Heap P N} {first second : List (P × N)} :
    h.Holds (first ++ second) ↔ h.Holds first ∧ h.Holds second := by
  simp only [Holds, List.mem_append]
  constructor
  · exact fun hall => ⟨fun c hc => hall c (.inl hc), fun c hc => hall c (.inr hc)⟩
  · rintro ⟨hfirst, hsecond⟩ c (hc | hc)
    exacts [hfirst c hc, hsecond c hc]

theorem Holds.of_agree {h h' : Heap P N} {cells : List (P × N)} (hold : h.Holds cells)
    (hagree : ∀ p ∈ cells.map Prod.fst, h'.get p = h.get p) : h'.Holds cells := by
  intro cell hcell
  rw [hagree cell.1 (List.mem_map_of_mem hcell)]
  exact hold cell hcell

/-- The frame rule for one write. -/
theorem Holds.set {h : Heap P N} {cells : List (P × N)} (hold : h.Holds cells) {p : P} (n : N)
    (hp : p ∉ cells.map Prod.fst) : (h.set p n).Holds cells :=
  hold.of_agree fun _ hq => get_set_ne h n fun heq => hp (heq ▸ hq)

/-- A separated assertion lists no more cells than there are. -/
theorem Holds.length_le_size {h : Heap P N} {cells : List (P × N)} (hold : h.Holds cells)
    (hnodup : (cells.map Prod.fst).Nodup) : cells.length ≤ h.size := by
  have hsub : cells.map Prod.fst ⊆ h.cells.map Prod.fst := by
    intro p hp
    obtain ⟨cell, hcell, rfl⟩ := List.mem_map.mp hp
    exact mem_keys_of_get (hold cell hcell)
  simpa [size] using (List.subperm_of_subset hnodup hsub).length_le

/-- Nothing changes outside `ps`. -/
def AgreeOff (ps : List P) (h h' : Heap P N) : Prop := ∀ q, q ∉ ps → h'.get q = h.get q

theorem AgreeOff.refl (ps : List P) (h : Heap P N) : AgreeOff ps h h := fun _ _ => rfl

theorem AgreeOff.trans {ps : List P} {h₁ h₂ h₃ : Heap P N} (h₁₂ : AgreeOff ps h₁ h₂)
    (h₂₃ : AgreeOff ps h₂ h₃) : AgreeOff ps h₁ h₃ :=
  fun q hq => (h₂₃ q hq).trans (h₁₂ q hq)

theorem AgreeOff.mono {ps qs : List P} {h h' : Heap P N} (hagree : AgreeOff ps h h')
    (hsub : ∀ p ∈ ps, p ∈ qs) : AgreeOff qs h h' :=
  fun q hq => hagree q fun hmem => hq (hsub q hmem)

theorem AgreeOff.set {ps : List P} (h : Heap P N) {p : P} (hp : p ∈ ps) (n : N) :
    AgreeOff ps h (h.set p n) :=
  fun _ hq => get_set_ne h n fun heq => hq (heq ▸ hp)

theorem AgreeOff.set_right {ps : List P} {h h' : Heap P N} (hagree : AgreeOff ps h h') {p : P}
    (hp : p ∈ ps) (n : N) : AgreeOff ps h (h'.set p n) :=
  hagree.trans (AgreeOff.set h' hp n)

theorem AgreeOff.holds {ps : List P} {h h' : Heap P N} (hagree : AgreeOff ps h h')
    {cells : List (P × N)} (hold : h.Holds cells)
    (hdisjoint : ∀ p ∈ cells.map Prod.fst, p ∉ ps) : h'.Holds cells :=
  hold.of_agree fun p hp => hagree p (hdisjoint p hp)

end Heap

end Interlock.Memory
