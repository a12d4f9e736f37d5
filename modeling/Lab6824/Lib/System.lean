import Mathlib.Data.List.Basic

/-!
# System — runs of a partial step function

A step function `step : S → A → Option S` gives the states that follow one another when actions are
taken; `none` means that the action cannot be taken.  `Along ok s as` says that every action of a
run is taken in a state that allows it, and `run_invariant` is the one induction that the safety
proofs below are instances of.
-/

namespace Lab6824.Lib

variable {S A : Type*} (step : S → A → Option S)

/-- The state after a list of actions. -/
def run : S → List A → Option S
  | s, [] => some s
  | s, a :: as =>
    match step s a with
    | none => none
    | some t => run t as

/-- Every action of the run satisfies `ok` in the state it is taken in. -/
def Along (ok : S → A → Prop) : S → List A → Prop
  | _, [] => True
  | s, a :: as => ok s a ∧ ∀ t, step s a = some t → Along ok t as

instance Along.decidable (ok : S → A → Prop) [∀ s a, Decidable (ok s a)] :
    ∀ s as, Decidable (Along step ok s as)
  | _, [] => isTrue trivial
  | s, a :: as =>
    match h : step s a with
    | none => decidable_of_iff (ok s a) ⟨fun ha ↦ ⟨ha, fun t ht ↦ by simp [h] at ht⟩, And.left⟩
    | some t =>
      have := Along.decidable ok t as
      decidable_of_iff (ok s a ∧ Along step ok t as)
        ⟨fun ha ↦ ⟨ha.1, fun u hu ↦ by rw [h] at hu; exact Option.some.inj hu ▸ ha.2⟩,
          fun ha ↦ ⟨ha.1, ha.2 t h⟩⟩

variable {step}

@[simp] theorem run_nil (s : S) : run step s [] = some s := rfl

theorem run_cons {s u : S} {a : A} {as : List A} :
    run step s (a :: as) = some u ↔ ∃ t, step s a = some t ∧ run step t as = some u := by
  show (match step s a with
    | none => none
    | some t => run step t as) = some u ↔ _
  cases step s a with
  | none => exact ⟨nofun, fun ⟨_, ht, _⟩ ↦ nomatch ht⟩
  | some t => exact ⟨fun h ↦ ⟨t, rfl, h⟩, fun ⟨_, ht, h⟩ ↦ Option.some.inj ht ▸ h⟩

theorem run_append {s u : S} {as bs : List A} :
    run step s (as ++ bs) = some u ↔ ∃ t, run step s as = some t ∧ run step t bs = some u := by
  induction as generalizing s with
  | nil => simp
  | cons a as ih =>
      rw [List.cons_append, run_cons]
      constructor
      · rintro ⟨t, ht, hrest⟩
        obtain ⟨v, hv, hu⟩ := ih.mp hrest
        exact ⟨v, run_cons.mpr ⟨t, ht, hv⟩, hu⟩
      · rintro ⟨v, hv, hu⟩
        obtain ⟨t, ht, hrest⟩ := run_cons.mp hv
        exact ⟨t, ht, ih.mpr ⟨v, hrest, hu⟩⟩

theorem run_concat {s u : S} {as : List A} {a : A} :
    run step s (as ++ [a]) = some u ↔ ∃ t, run step s as = some t ∧ step t a = some u := by
  simp only [run_append, run_cons, run_nil, Option.some.injEq, exists_eq_right]

/-- A run that evaluates to a state passing the test `p`. -/
theorem exists_run_of_any {p : S → Bool} {s : S} {as : List A}
    (h : (run step s as).any p = true) : ∃ t, run step s as = some t ∧ p t = true := by
  cases hrun : run step s as with
  | none => simp [hrun] at h
  | some t => exact ⟨t, rfl, by simpa [hrun] using h⟩

/-- The next action is allowed and can be taken. -/
theorem along_cons_of_isSome {ok : S → A → Prop} {s : S} {a : A} {as : List A} (ha : ok s a)
    (hsome : (step s a).isSome = true) (hrest : Along step ok ((step s a).getD s) as) :
    Along step ok s (a :: as) := by
  obtain ⟨t, ht⟩ := Option.isSome_iff_exists.mp hsome
  refine ⟨ha, fun u hu ↦ ?_⟩
  rw [hu] at hrest
  exact hrest

theorem along_append {ok : S → A → Prop} {s t : S} {as bs : List A}
    (hrun : run step s as = some t) :
    Along step ok s (as ++ bs) ↔ Along step ok s as ∧ Along step ok t bs := by
  induction as generalizing s with
  | nil =>
      rw [run_nil, Option.some.injEq] at hrun
      subst hrun
      simp [Along]
  | cons a as ih =>
      obtain ⟨v, hv, hrest⟩ := run_cons.mp hrun
      have key := ih hrest
      simp only [List.cons_append, Along, hv, Option.some.injEq, forall_eq']
      rw [key, and_assoc]

theorem exists_run_of_isPrefix {s u : S} {as pre : List A} (hrun : run step s as = some u)
    (hpre : pre <+: as) : ∃ t, run step s pre = some t := by
  obtain ⟨post, rfl⟩ := hpre
  obtain ⟨t, ht, _⟩ := run_append.mp hrun
  exact ⟨t, ht⟩

/-- `Along` in terms of the states that the prefixes of the run reach. -/
theorem along_iff_forall_isPrefix {ok : S → A → Prop} {s u : S} {as : List A}
    (hrun : run step s as = some u) :
    Along step ok s as ↔
      ∀ pre a t, pre ++ [a] <+: as → run step s pre = some t → ok t a := by
  constructor
  · rintro hal pre a t ⟨post, rfl⟩ ht
    rw [List.append_assoc] at hal
    exact ((along_append ht).mp hal).2.1
  · intro hpre
    induction as generalizing s with
    | nil => trivial
    | cons a as ih =>
        obtain ⟨v, hv, hrest⟩ := run_cons.mp hrun
        refine ⟨hpre [] a s ⟨as, rfl⟩ rfl, ?_⟩
        intro t ht
        rw [hv, Option.some.injEq] at ht
        subst ht
        refine ih hrest fun pre b t hb hpt ↦ ?_
        have hcons : run step s (a :: pre) = some t := run_cons.mpr ⟨v, hv, hpt⟩
        exact hpre (a :: pre) b t ((List.prefix_cons_inj a).mpr hb) hcons

/-- A condition on the actions alone can be added to one on states and actions. -/
theorem along_and_forall_mem {ok : S → A → Prop} {p : A → Prop} {s : S} {as : List A}
    (hal : Along step ok s as) (hp : ∀ a ∈ as, p a) :
    Along step (fun s a ↦ ok s a ∧ p a) s as := by
  induction as generalizing s with
  | nil => trivial
  | cons a as ih =>
      exact ⟨⟨hal.1, hp a List.mem_cons_self⟩,
        fun t ht ↦ ih (hal.2 t ht) fun b hb ↦ hp b (List.mem_cons_of_mem a hb)⟩

theorem along_true (s : S) (as : List A) : Along step (fun _ _ ↦ True) s as := by
  induction as generalizing s with
  | nil => trivial
  | cons a as ih => exact ⟨trivial, fun t _ ↦ ih t⟩

/-- If `ok` says which actions can be taken, a run comes to its end exactly if it is `ok` all along. -/
theorem exists_run_iff_along {ok : S → A → Prop} (hstep : ∀ s a, (∃ t, step s a = some t) ↔ ok s a)
    {s : S} {as : List A} : (∃ t, run step s as = some t) ↔ Along step ok s as := by
  induction as generalizing s with
  | nil => exact iff_of_true ⟨s, rfl⟩ trivial
  | cons a as ih =>
      constructor
      · rintro ⟨u, hrun⟩
        obtain ⟨v, hv, hrest⟩ := run_cons.mp hrun
        refine ⟨(hstep s a).mp ⟨v, hv⟩, fun t ht ↦ ?_⟩
        rw [hv, Option.some.injEq] at ht
        exact ih.mp ⟨u, ht ▸ hrest⟩
      · rintro ⟨hok, hal⟩
        obtain ⟨v, hv⟩ := (hstep s a).mpr hok
        obtain ⟨u, hrest⟩ := ih.mpr (hal v hv)
        exact ⟨u, run_cons.mpr ⟨v, hv, hrest⟩⟩

/-- What holds at the start and is kept by every allowed step holds at the end of every run. -/
theorem run_invariant {ok : S → A → Prop} {I : S → Prop}
    (hstep : ∀ s a t, I s → ok s a → step s a = some t → I t)
    {s t : S} {as : List A} (hs : I s) (hok : Along step ok s as)
    (hrun : run step s as = some t) : I t := by
  induction as generalizing s with
  | nil =>
      rw [run_nil, Option.some.injEq] at hrun
      exact hrun ▸ hs
  | cons a as ih =>
      obtain ⟨v, hv, hrest⟩ := run_cons.mp hrun
      exact ih (hstep s a v hs hok.1 hv) (hok.2 v hv) hrest

/-- A relation between consecutive states that is reflexive and transitive relates the ends of every
run. -/
theorem run_relation {ok : S → A → Prop} {I : S → Prop} {R : S → S → Prop}
    (hrefl : ∀ s, R s s) (htrans : ∀ s t u, R s t → R t u → R s u)
    (hstep : ∀ s a t, I s → ok s a → step s a = some t → I t ∧ R s t)
    {s t : S} {as : List A} (hs : I s) (hok : Along step ok s as)
    (hrun : run step s as = some t) : R s t := by
  induction as generalizing s with
  | nil =>
      rw [run_nil, Option.some.injEq] at hrun
      exact hrun ▸ hrefl s
  | cons a as ih =>
      obtain ⟨v, hv, hrest⟩ := run_cons.mp hrun
      obtain ⟨hIv, hR⟩ := hstep s a v hs hok.1 hv
      exact htrans s v t hR (ih hIv (hok.2 v hv) hrest)

/-- A forward simulation: every allowed step can be followed by an abstract state that `le` leads
to, and so can every run. -/
theorem run_simulates {G : Type*} {ok : S → A → Prop} {R : S → G → Prop} {le : G → G → Prop}
    (hrefl : ∀ g, le g g) (htrans : ∀ g g₁ g₂, le g g₁ → le g₁ g₂ → le g g₂)
    (hstep : ∀ s a t g, R s g → ok s a → step s a = some t → ∃ g', le g g' ∧ R t g')
    {s t : S} {as : List A} {g : G} (hs : R s g) (hok : Along step ok s as)
    (hrun : run step s as = some t) : ∃ g', le g g' ∧ R t g' := by
  induction as generalizing s g with
  | nil =>
      rw [run_nil, Option.some.injEq] at hrun
      exact ⟨g, hrefl g, hrun ▸ hs⟩
  | cons a as ih =>
      obtain ⟨v, hv, hrest⟩ := run_cons.mp hrun
      obtain ⟨g₁, hle, hR⟩ := hstep s a v g hs hok.1 hv
      obtain ⟨g₂, hle', hR'⟩ := ih hR (hok.2 v hv) hrest
      exact ⟨g₂, htrans g g₁ g₂ hle hle', hR'⟩

/-! ## Refinement -/

section Refinement

variable {O G B : Type*}

/-- What is seen of a run, if `obs s a` is seen of action `a` in state `s`. -/
def observed (step : S → A → Option S) (obs : S → A → List O) : S → List A → List O
  | _, [] => []
  | s, a :: as =>
    match step s a with
    | none => []
    | some t => obs s a ++ observed step obs t as

theorem observed_cons {obs : S → A → List O} {s t : S} {a : A} {as : List A}
    (h : step s a = some t) :
    observed step obs s (a :: as) = obs s a ++ observed step obs t as := by
  rw [observed, h]

theorem observed_append {obs : S → A → List O} {s t : S} {as bs : List A}
    (h : run step s as = some t) :
    observed step obs s (as ++ bs) = observed step obs s as ++ observed step obs t bs := by
  induction as generalizing s with
  | nil =>
      rw [run_nil, Option.some.injEq] at h
      rw [h]
      rfl
  | cons a as ih =>
      obtain ⟨v, hv, hrest⟩ := run_cons.mp h
      rw [List.cons_append, observed_cons hv, observed_cons hv, ih hrest, List.append_assoc]

/-- If every step of one system is matched by a run of another with the same observations, then so
is every run. -/
theorem run_refines {ok : S → A → Prop} {obs : S → A → List O} {step' : G → B → Option G}
    {obs' : G → B → List O} {R : S → G → Prop}
    (hstep : ∀ s a t g, R s g → ok s a → step s a = some t →
      ∃ bs g', run step' g bs = some g' ∧ observed step' obs' g bs = obs s a ∧ R t g')
    {s t : S} {as : List A} {g : G} (hs : R s g) (hok : Along step ok s as)
    (hrun : run step s as = some t) :
    ∃ bs g', run step' g bs = some g' ∧
      observed step' obs' g bs = observed step obs s as ∧ R t g' := by
  induction as generalizing s g with
  | nil =>
      rw [run_nil, Option.some.injEq] at hrun
      exact ⟨[], g, rfl, rfl, hrun ▸ hs⟩
  | cons a as ih =>
      obtain ⟨v, hv, hrest⟩ := run_cons.mp hrun
      obtain ⟨bs, g₁, hbs, hobs, hR⟩ := hstep s a v g hs hok.1 hv
      obtain ⟨bs', g₂, hbs', hobs', hR'⟩ := ih hR (hok.2 v hv) hrest
      refine ⟨bs ++ bs', g₂, run_append.mpr ⟨g₁, hbs, hbs'⟩, ?_, hR'⟩
      rw [observed_append hbs, hobs, hobs', observed_cons hv]

end Refinement

end Lab6824.Lib
