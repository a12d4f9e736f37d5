import Lab6824.Lib.Loop
import Lab6824.Lib.Marks
import Mathlib.Data.Finset.Card

/-!
# Search — looking for a linearization with a stack and a cache

The search takes open operations one after the other.  `todo` is what is left to try in the present
state; a `Frame` of the stack remembers the operation that was taken, the state before it and what
was left to try there.  At a return nothing is left to try, and the last operation is taken back.
What has been reached once, up to states that `eqv` identifies, is in the cache and is not entered
again.  `ends` lists the orders at which the search had to turn back; it is not used by the search.

A *node* is a set of operations together with a state.  The argument for completeness is that of any
graph search: each node that has been left has all its successors in the cache, so that at the end
everything that can be reached is there.
-/

namespace Lab6824.Lib

structure Frame (ι S : Type*) where
  id : ι
  state : S
  rest : List (Mark ι)

structure Search (ι S : Type*) where
  calls : List (Frame ι S)
  state : S
  todo : List (Mark ι)
  cache : List (Finset ι × S)
  ends : List (List ι)

variable {ι S : Type*} [DecidableEq ι]

/-- The operations that have been taken, in the order in which they were. -/
def taken (calls : List (Frame ι S)) : List ι :=
  (calls.map Frame.id).reverse

def held (calls : List (Frame ι S)) : Finset ι :=
  (calls.map Frame.id).toFinset

@[simp] theorem held_nil : held ([] : List (Frame ι S)) = ∅ := rfl

@[simp] theorem held_cons (f : Frame ι S) (calls : List (Frame ι S)) :
    held (f :: calls) = insert f.id (held calls) :=
  List.toFinset_cons

@[simp] theorem toFinset_taken (calls : List (Frame ι S)) :
    (taken calls).toFinset = held calls :=
  List.toFinset_reverse

omit [DecidableEq ι] in
@[simp] theorem taken_cons (f : Frame ι S) (calls : List (Frame ι S)) :
    taken (f :: calls) = taken calls ++ [f.id] := by
  simp [taken]

namespace Search

variable (next : S → ι → Option S) (eqv : S → S → Bool) (es : List (Mark ι))

def start (s : S) : Search ι S :=
  { calls := [], state := s, todo := es, cache := [], ends := [] }

/-- The marks of the operations that are not taken. -/
def left (m : Search ι S) : List (Mark ι) :=
  without es (held m.calls)

def cached (m : Search ι S) (L : Finset ι) (s : S) : Bool :=
  m.cache.any fun node ↦ decide (node.1 = L) && eqv s node.2

def push (m : Search ι S) (i : ι) (t : S) (rest : List (Mark ι)) : Search ι S :=
  { m with
    calls := ⟨i, m.state, rest⟩ :: m.calls
    state := t
    todo := without es (insert i (held m.calls))
    cache := (insert i (held m.calls), t) :: m.cache }

def pop (m : Search ι S) (f : Frame ι S) (calls : List (Frame ι S)) : Search ι S :=
  { m with calls := calls, state := f.state, todo := f.rest, ends := taken m.calls :: m.ends }

/-- One round of the search. -/
def step (m : Search ι S) : Progress (Search ι S) Bool :=
  if m.left es = [] then .done true
  else
    match m.todo with
    | [] => .done false
    | .call i :: rest =>
      match next m.state i with
      | none => .going { m with todo := rest }
      | some t =>
        if m.cached eqv (insert i (held m.calls)) t then .going { m with todo := rest }
        else .going (m.push es i t rest)
    | .ret _ :: _ =>
      match m.calls with
      | [] => .done false
      | f :: calls => .going (m.pop f calls)

variable {next eqv es}

/-- What a round does that does not end the search. -/
theorem step_eq_going {m m' : Search ι S} (h : m.step next eqv es = .going m') :
    m.left es ≠ [] ∧
      ((∃ i rest, m.todo = .call i :: rest ∧ m' = { m with todo := rest } ∧
          ∀ t, next m.state i = some t → m.cached eqv (insert i (held m.calls)) t = true) ∨
        (∃ i rest t, m.todo = .call i :: rest ∧ next m.state i = some t ∧
          m.cached eqv (insert i (held m.calls)) t = false ∧ m' = m.push es i t rest) ∨
        ∃ i rest f calls, m.todo = .ret i :: rest ∧ m.calls = f :: calls ∧ m' = m.pop f calls) := by
  unfold step at h
  split at h
  · cases h
  · rename_i hleft
    refine ⟨hleft, ?_⟩
    split at h
    · cases h
    · rename_i i rest htodo
      split at h
      · rename_i hnone
        injection h with h
        exact Or.inl ⟨i, rest, htodo, h.symm, by simp [hnone]⟩
      · rename_i t hsome
        split at h
        · rename_i hcached
          injection h with h
          exact Or.inl ⟨i, rest, htodo, h.symm, by simp [hsome, hcached]⟩
        · rename_i hcached
          injection h with h
          exact Or.inr (Or.inl ⟨i, rest, t, htodo, hsome, Bool.not_eq_true _ ▸ hcached, h.symm⟩)
    · rename_i i rest htodo
      split at h
      · cases h
      · rename_i f calls hcalls
        injection h with h
        exact Or.inr (Or.inr ⟨i, rest, f, calls, htodo, hcalls, h.symm⟩)

/-- How the search ends. -/
theorem step_eq_done {m : Search ι S} {found : Bool} (h : m.step next eqv es = .done found) :
    found = true ∧ m.left es = [] ∨
      found = false ∧ m.left es ≠ [] ∧
        (m.todo = [] ∨ m.calls = [] ∧ ∃ i rest, m.todo = .ret i :: rest) := by
  unfold step at h
  split at h
  · rename_i hleft
    injection h with h
    exact Or.inl ⟨h.symm, hleft⟩
  · rename_i hleft
    right
    split at h
    · rename_i htodo
      injection h with h
      exact ⟨h.symm, hleft, Or.inl htodo⟩
    · split at h
      · cases h
      · split at h <;> cases h
    · rename_i i rest htodo
      split at h
      · rename_i hcalls
        injection h with h
        exact ⟨h.symm, hleft, Or.inr ⟨hcalls, i, rest, htodo⟩⟩
      · cases h

/-! ## The invariant -/

/-- The cache holds the node, up to states that cannot be told apart. -/
def Covered (next : S → ι → Option S) (cache : List (Finset ι × S)) (L : Finset ι) (s : S) : Prop :=
  ∃ t, (L, t) ∈ cache ∧ SameFuture next s t

/-- Before `rest` there are only operations whose effect is in the cache. -/
def Tried (next : S → ι → Option S) (es : List (Mark ι)) (cache : List (Finset ι × S))
    (L : Finset ι) (s : S) (rest : List (Mark ι)) : Prop :=
  ∃ before, without es L = before ++ rest ∧ ∀ x ∈ before, ∃ i, x = .call i ∧
    ∀ t, next s i = some t → Covered next cache (insert i L) t

/-- The stack leads from `s₀` to the state `s`. -/
def Path (next : S → ι → Option S) (es : List (Mark ι)) (s₀ : S) (cache : List (Finset ι × S)) :
    List (Frame ι S) → S → Prop
  | [], s => s = s₀
  | f :: calls, s =>
    next f.state f.id = some s ∧ (held (f :: calls), s) ∈ cache ∧
      Tried next es cache (held calls) f.state (.call f.id :: f.rest) ∧
      Path next es s₀ cache calls f.state

/-- The nodes on the way to the present one. -/
def trail : List (Frame ι S) → S → List (Finset ι × S)
  | [], s => [(∅, s)]
  | f :: calls, s => (held (f :: calls), s) :: trail calls f.state

/-- The effects of all open operations are in the cache. -/
def Expanded (next : S → ι → Option S) (es : List (Mark ι)) (cache : List (Finset ι × S))
    (node : Finset ι × S) : Prop :=
  ∀ i ∈ opened (without es node.1), ∀ t, next node.2 i = some t →
    Covered next cache (insert i node.1) t

/-- The search has been at the node and has left it for good. -/
structure Finished (next : S → ι → Option S) (es : List (Mark ι)) (m : Search ι S)
    (node : Finset ι × S) : Prop where
  incomplete : without es node.1 ≠ []
  expanded : Expanded next es m.cache node
  ended : node.1.Nonempty → ∃ order ∈ m.ends, order.toFinset = node.1

structure Inv (next : S → ι → Option S) (es : List (Mark ι)) (s₀ : S) (m : Search ι S) : Prop where
  path : Path next es s₀ m.cache m.calls m.state
  tried : Tried next es m.cache (held m.calls) m.state m.todo
  visited : ∀ node ∈ (∅, s₀) :: m.cache,
    node ∈ trail m.calls m.state ∨ Finished next es m node
  ends : ∀ order ∈ m.ends, Runs next es ∅ s₀ order

section Monotone

variable {cache cache' : List (Finset ι × S)} {L : Finset ι} {s s₀ : S}

omit [DecidableEq ι] in
theorem Covered.mono (h : Covered next cache L s) (hsub : cache ⊆ cache') :
    Covered next cache' L s := by
  obtain ⟨t, hmem, hsame⟩ := h
  exact ⟨t, hsub hmem, hsame⟩

theorem Tried.mono {rest : List (Mark ι)} (h : Tried next es cache L s rest)
    (hsub : cache ⊆ cache') : Tried next es cache' L s rest := by
  obtain ⟨before, heq, hbefore⟩ := h
  refine ⟨before, heq, fun x hx ↦ ?_⟩
  obtain ⟨i, rfl, hcov⟩ := hbefore x hx
  exact ⟨i, rfl, fun t ht ↦ (hcov t ht).mono hsub⟩

theorem Path.mono {calls : List (Frame ι S)} (h : Path next es s₀ cache calls s)
    (hsub : cache ⊆ cache') : Path next es s₀ cache' calls s := by
  induction calls generalizing s with
  | nil => exact h
  | cons f calls ih =>
      obtain ⟨hnext, hmem, htried, hpath⟩ := h
      exact ⟨hnext, hsub hmem, htried.mono hsub, ih hpath⟩

theorem Finished.mono {m m' : Search ι S} {node : Finset ι × S} (h : Finished next es m node)
    (hcache : m.cache ⊆ m'.cache) (hends : m.ends ⊆ m'.ends) : Finished next es m' node where
  incomplete := h.incomplete
  expanded i hi t ht := (h.expanded i hi t ht).mono hcache
  ended hne := by
    obtain ⟨order, hmem, heq⟩ := h.ended hne
    exact ⟨order, hends hmem, heq⟩

end Monotone

section Steps

variable {cache : List (Finset ι × S)} {L : Finset ι} {s s₀ : S} {m : Search ι S}

/-- The next operation has been tried as well. -/
theorem Tried.snoc {i : ι} {rest : List (Mark ι)} (h : Tried next es cache L s (.call i :: rest))
    (hi : ∀ t, next s i = some t → Covered next cache (insert i L) t) :
    Tried next es cache L s rest := by
  obtain ⟨before, heq, hbefore⟩ := h
  refine ⟨before ++ [.call i], by rw [heq, List.append_assoc, List.singleton_append], ?_⟩
  intro x hx
  rw [List.mem_append, List.mem_singleton] at hx
  rcases hx with hx | rfl
  · exact hbefore x hx
  · exact ⟨i, rfl, hi⟩

omit [DecidableEq ι] in
theorem mem_of_mem_opened_append_ret {before rest : List (Mark ι)} {i j : ι}
    (h : i ∈ opened (before ++ .ret j :: rest)) : .call i ∈ before := by
  induction before with
  | nil => cases h
  | cons x before ih =>
      cases x with
      | ret k => cases h
      | call k =>
          rw [List.cons_append, opened, List.mem_cons] at h
          rcases h with rfl | h
          · exact List.mem_cons_self
          · exact List.mem_cons_of_mem _ (ih h)

/-- At a return everything has been tried. -/
theorem Tried.expanded {j : ι} {rest : List (Mark ι)}
    (h : Tried next es cache L s (.ret j :: rest)) : Expanded next es cache (L, s) := by
  obtain ⟨before, heq, hbefore⟩ := h
  intro i hi
  dsimp only at hi ⊢
  rw [heq] at hi
  obtain ⟨k, hk, hcov⟩ := hbefore _ (mem_of_mem_opened_append_ret hi)
  cases hk
  exact hcov

theorem Tried.call_mem {i : ι} {rest : List (Mark ι)}
    (h : Tried next es cache L s (.call i :: rest)) : .call i ∈ without es L := by
  obtain ⟨before, heq, _⟩ := h
  rw [heq]
  simp

/-- The operation at which the search stands is open. -/
theorem Tried.mem_opened {i : ι} {rest : List (Mark ι)}
    (h : Tried next es cache L s (.call i :: rest)) : i ∈ opened (without es L) := by
  obtain ⟨before, heq, hbefore⟩ := h
  refine Lib.mem_opened.mpr ⟨before, rest, heq, fun x hx ↦ ?_⟩
  obtain ⟨j, hj, _⟩ := hbefore x hx
  exact ⟨j, hj⟩

/-- The operations on the stack can be taken in their order. -/
theorem Path.runs {calls : List (Frame ι S)} (h : Path next es s₀ cache calls s) :
    Runs next es ∅ s₀ (taken calls) ∧ run next s₀ (taken calls) = some s := by
  induction calls generalizing s with
  | nil =>
      cases h
      exact ⟨trivial, rfl⟩
  | cons f calls ih =>
      obtain ⟨hnext, _, htried, hpath⟩ := h
      obtain ⟨hruns, hrun⟩ := ih hpath
      rw [taken_cons]
      refine ⟨runs_concat hruns hrun ?_ hnext, run_concat.mpr ⟨_, hrun, hnext⟩⟩
      rw [Finset.empty_union, toFinset_taken]
      exact htried.mem_opened

theorem Inv.start (s₀ : S) : Inv next es s₀ (start es s₀) where
  path := rfl
  tried := ⟨[], by simp [Search.start], by simp⟩
  visited := by
    intro node hnode
    exact Or.inl hnode
  ends := by simp [Search.start]

theorem Inv.skip (h : Inv next es s₀ m) {i : ι} {rest : List (Mark ι)}
    (htodo : m.todo = .call i :: rest)
    (hcov : ∀ t, next m.state i = some t → Covered next m.cache (insert i (held m.calls)) t) :
    Inv next es s₀ { m with todo := rest } where
  path := h.path
  tried := (htodo ▸ h.tried).snoc hcov
  visited node hnode := (h.visited node hnode).imp_right fun hfin ↦
    hfin.mono (List.Subset.refl _) (List.Subset.refl _)
  ends := h.ends

theorem Inv.push (h : Inv next es s₀ m) {i : ι} {rest : List (Mark ι)} {t : S}
    (htodo : m.todo = .call i :: rest) (hnext : next m.state i = some t) :
    Inv next es s₀ (m.push es i t rest) := by
  have hsub : m.cache ⊆ (m.push es i t rest).cache := List.subset_cons_self _ _
  refine ⟨⟨hnext, ?_, (htodo ▸ h.tried).mono hsub, h.path.mono hsub⟩, ?_, ?_, h.ends⟩
  · rw [held_cons]
    exact List.mem_cons_self
  · refine ⟨[], ?_, by simp⟩
    simp [Search.push]
  · intro node hnode
    have hold : node = (insert i (held m.calls), t) ∨ node ∈ (∅, s₀) :: m.cache := by
      simp only [Search.push, List.mem_cons] at hnode ⊢
      tauto
    rcases hold with rfl | hold
    · left
      simp [Search.push, trail]
    · rcases h.visited node hold with htrail | hfin
      · exact Or.inl (List.mem_cons_of_mem _ htrail)
      · exact Or.inr (hfin.mono hsub (List.Subset.refl _))

theorem Inv.pop (h : Inv next es s₀ m) (hleft : m.left es ≠ []) {i : ι} {rest : List (Mark ι)}
    (htodo : m.todo = .ret i :: rest) {f : Frame ι S} {calls : List (Frame ι S)}
    (hcalls : m.calls = f :: calls) : Inv next es s₀ (m.pop f calls) := by
  have hpath := h.path
  rw [hcalls] at hpath
  obtain ⟨hnext, hmem, htried, hbelow⟩ := hpath
  refine ⟨hbelow, htried.snoc fun t ht ↦ ?_, ?_, ?_⟩
  · -- the node that the search comes back from
    rw [hnext, Option.some.injEq] at ht
    subst ht
    rw [held_cons] at hmem
    exact ⟨m.state, hmem, SameFuture.refl _⟩
  · intro node hnode
    rcases h.visited node hnode with htrail | hfin
    · rw [hcalls, trail, List.mem_cons] at htrail
      rcases htrail with rfl | htrail
      · right
        refine ⟨?_, ?_, fun _ ↦ ⟨taken m.calls, List.mem_cons_self, ?_⟩⟩
        · rw [← hcalls]
          exact hleft
        · have htop := h.tried
          rw [htodo, hcalls] at htop
          exact htop.expanded
        · rw [toFinset_taken, hcalls]
      · exact Or.inl htrail
    · exact Or.inr (hfin.mono (List.Subset.refl _) (List.subset_cons_self _ _))
  · intro order horder
    rcases List.mem_cons.mp horder with rfl | horder
    · exact h.path.runs.1
    · exact h.ends order horder

theorem covered_of_cached (heqv : ∀ s t, eqv s t = true → SameFuture next s t) {t : S}
    (h : m.cached eqv L t = true) : Covered next m.cache L t := by
  rw [cached, List.any_eq_true] at h
  obtain ⟨⟨L', u⟩, hmem, hnode⟩ := h
  rw [Bool.and_eq_true, decide_eq_true_iff] at hnode
  obtain ⟨rfl, hsame⟩ := hnode
  exact ⟨u, hmem, heqv t u hsame⟩

theorem Inv.step (heqv : ∀ s t, eqv s t = true → SameFuture next s t) {m' : Search ι S}
    (h : Inv next es s₀ m) (hstep : m.step next eqv es = .going m') : Inv next es s₀ m' := by
  rcases step_eq_going hstep with ⟨hleft, ⟨i, rest, htodo, rfl, hcached⟩ |
    ⟨i, rest, t, htodo, hnext, _, rfl⟩ | ⟨i, rest, f, calls, htodo, hcalls, rfl⟩⟩
  · exact h.skip htodo fun t ht ↦ covered_of_cached heqv (hcached t ht)
  · exact h.push htodo hnext
  · exact h.pop hleft htodo hcalls

end Steps

/-! ## What the search has found -/

section Verdict

variable {s₀ : S} {m : Search ι S}

theorem Inv.fullLinearization (hes : Complete es) (h : Inv next es s₀ m) (hleft : m.left es = []) :
    FullLinearization next es s₀ (taken m.calls) := by
  rw [fullLinearization_iff hes, toFinset_taken]
  exact ⟨h.path.runs.1, hleft⟩

/-- Orders that can be taken from a node lead to nodes of the cache, if every node is expanded. -/
theorem covered_of_runs (hall : ∀ node ∈ (∅, s₀) :: m.cache, Expanded next es m.cache node)
    {L : Finset ι} {s t : S} (hnode : (L, t) ∈ (∅, s₀) :: m.cache) (hsame : SameFuture next s t)
    {order : List ι} (hruns : Runs next es L s order) :
    ∃ u, (L ∪ order.toFinset, u) ∈ (∅, s₀) :: m.cache := by
  induction order generalizing L s t with
  | nil => exact ⟨t, by simpa using hnode⟩
  | cons i order ih =>
      obtain ⟨hopen, s', hs', hrest⟩ := hruns
      obtain ⟨t', ht', hsame'⟩ := hsame.step hs'
      obtain ⟨u, hu, hsame''⟩ := hall (L, t) hnode i hopen t' ht'
      have key := ih (List.mem_cons_of_mem _ hu) (hsame'.trans hsame'') hrest
      rwa [List.toFinset_cons, Finset.union_insert, ← Finset.insert_union]

/-- The search does not run past the end of what is left. -/
theorem Inv.todo_ne_nil (hes : Complete es) (h : Inv next es s₀ m) (hleft : m.left es ≠ []) :
    m.todo ≠ [] := by
  intro hnil
  obtain ⟨before, heq, hbefore⟩ := h.tried
  rw [hnil, List.append_nil] at heq
  obtain ⟨i, hi⟩ := (hes.without (held m.calls)).exists_ret_mem hleft
  rw [heq] at hi
  obtain ⟨j, hj, _⟩ := hbefore _ hi
  cases hj

/-- When the search gives up, every order that can be taken is incomplete, and it has turned back at
one with the same operations. -/
theorem Inv.exhausted (h : Inv next es s₀ m) (hleft : m.left es ≠ []) (hcalls : m.calls = [])
    {j : ι} {rest : List (Mark ι)} (htodo : m.todo = .ret j :: rest) {order : List ι}
    (hruns : Runs next es ∅ s₀ order) :
    without es order.toFinset ≠ [] ∧
      (order ≠ [] → ∃ stuck ∈ m.ends, stuck.toFinset = order.toFinset) := by
  have hroot : m.state = s₀ := by
    have hpath := h.path
    rw [hcalls] at hpath
    exact hpath
  have hexpanded : Expanded next es m.cache (∅, s₀) := by
    have htop := h.tried
    rw [htodo, hcalls, hroot] at htop
    exact htop.expanded
  -- only the root is still on the trail
  have hvisited : ∀ node ∈ (∅, s₀) :: m.cache, node = (∅, s₀) ∨ Finished next es m node := by
    intro node hnode
    have := h.visited node hnode
    rwa [hcalls, hroot, trail, List.mem_singleton] at this
  obtain ⟨u, hu⟩ := covered_of_runs (t := s₀)
    (fun node hnode ↦ by
      rcases hvisited node hnode with rfl | hfin
      · exact hexpanded
      · exact hfin.expanded)
    List.mem_cons_self (SameFuture.refl s₀) hruns
  rw [Finset.empty_union] at hu
  rcases hvisited _ hu with hroot' | hfin
  · rw [Prod.mk.injEq] at hroot'
    rw [hroot'.1]
    rw [Search.left, hcalls] at hleft
    refine ⟨hleft, fun hne ↦ ?_⟩
    exact absurd (List.toFinset_eq_empty_iff order |>.mp hroot'.1) hne
  · refine ⟨hfin.incomplete, fun hne ↦ hfin.ended ?_⟩
    rw [Finset.nonempty_iff_ne_empty]
    exact fun hempty ↦ hne ((List.toFinset_eq_empty_iff order).mp hempty)

end Verdict

/-! ## The search ends -/

/-- A bound for the work that one mark can cause where `n` marks are left. -/
def cost : Nat → Nat
  | 0 => 1
  | n + 1 => n * cost n + 1

theorem cost_pos (n : Nat) : 0 < cost n := by
  cases n <;> simp [cost]

theorem cost_mono {n k : Nat} (h : n ≤ k) : cost n ≤ cost k := by
  induction k, h using Nat.le_induction with
  | base => exact le_refl _
  | succ k hk ih =>
      rw [cost]
      cases k with
      | zero =>
          rw [Nat.le_zero.mp hk]
          simp [cost]
      | succ k =>
          calc cost n ≤ 1 * cost (k + 1) := by rw [Nat.one_mul]; exact ih
            _ ≤ (k + 1) * cost (k + 1) := Nat.mul_le_mul_right _ (by omega)
            _ ≤ (k + 1) * cost (k + 1) + 1 := Nat.le_succ _

/-- Starting anew with fewer marks costs less than one mark. -/
theorem mul_cost_lt {n k : Nat} (h : n < k) : n * cost n < cost k := by
  calc n * cost n < cost (n + 1) := Nat.lt_succ_self _
    _ ≤ cost k := cost_mono h

variable (es) in
/-- The work that is left below the top of the stack. -/
def workBelow : List (Frame ι S) → Nat
  | [] => 0
  | f :: calls => f.rest.length * cost (without es (held calls)).length + workBelow calls

variable (es) in
def work (m : Search ι S) : Nat :=
  m.todo.length * cost (m.left es).length + workBelow es m.calls

theorem work_start (s : S) : work es (start es s) = es.length * cost es.length := by
  simp [work, start, left, workBelow]

theorem Inv.work_lt {s₀ : S} {m m' : Search ι S} (h : Inv next es s₀ m)
    (hstep : m.step next eqv es = .going m') : work es m' < work es m := by
  rcases step_eq_going hstep with ⟨_, ⟨i, rest, htodo, rfl, _⟩ |
    ⟨i, rest, t, htodo, _, _, rfl⟩ | ⟨i, rest, f, calls, htodo, hcalls, rfl⟩⟩
  · have hpos := cost_pos (m.left es).length
    simp only [work, left, htodo, List.length_cons, Nat.succ_mul] at hpos ⊢
    omega
  · -- the new level has fewer marks, and one mark less is left on the old one
    have hmem : Mark.call i ∈ m.left es := (htodo ▸ h.tried).call_mem
    have hfewer : (without es (insert i (held m.calls))).length < (m.left es).length := by
      rw [without_insert]
      exact List.length_filter_lt_length_iff_exists.mpr ⟨_, hmem, by simp⟩
    have hcost := mul_cost_lt hfewer
    simp only [work, Search.push, left, workBelow, held_cons, htodo, List.length_cons, Nat.succ_mul]
      at hcost ⊢
    omega
  · have hpos := cost_pos (m.left es).length
    simp only [work, Search.pop, left, hcalls, htodo, workBelow, List.length_cons, Nat.succ_mul] at hpos ⊢
    omega

end Search

end Lab6824.Lib
