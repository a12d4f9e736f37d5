import Lab6824.Lib.Lists
import Lab6824.Lib.System
import Mathlib.Data.Finset.Lattice.Lemmas

/-!
# Marks — calls and returns in the order of time, and the sequential orders that they allow

A history is seen here as a list of marks: an operation `i` leaves a `call i` where it starts and a
`ret i` where it ends.  A sequential object is a step function `next : S → ι → Option S`.

An operation may take effect first if no other one has returned before it is called; these are the
operations `opened`.  `Runs` builds sequential orders one operation after the other from what is
open, as a search does; `PartialLinearization` says the same without reference to a construction.
-/

namespace Lab6824.Lib

inductive Mark (ι : Type*) where
  | call (i : ι)
  | ret (i : ι)
  deriving DecidableEq

variable {ι S : Type*}

namespace Mark

def id : Mark ι → ι
  | call i => i
  | ret i => i

@[simp] theorem id_call (i : ι) : (call i).id = i := rfl

@[simp] theorem id_ret (i : ι) : (ret i).id = i := rfl

end Mark

/-- The mark `x` stands before `y`. -/
def Before (es : List (Mark ι)) (x y : Mark ι) : Prop :=
  [x, y].Sublist es

instance Before.decidable [DecidableEq ι] (es : List (Mark ι)) (x y : Mark ι) :
    Decidable (Before es x y) :=
  inferInstanceAs (Decidable ([x, y].Sublist es))

/-- Every operation of the history is called once and returns once, later. -/
structure Complete (es : List (Mark ι)) : Prop where
  nodup : es.Nodup
  paired : ∀ m ∈ es, Before es (.call m.id) (.ret m.id)

/-- The operations that are called before anything returns. -/
def opened : List (Mark ι) → List ι
  | .call i :: es => i :: opened es
  | _ => []

theorem mem_opened {es : List (Mark ι)} {i : ι} :
    i ∈ opened es ↔ ∃ before after, es = before ++ .call i :: after ∧
      ∀ m ∈ before, ∃ j, m = .call j := by
  induction es with
  | nil => simp [opened]
  | cons m es ih =>
      cases m with
      | ret j =>
          simp only [opened, List.not_mem_nil, false_iff, not_exists, not_and]
          intro before after heq hcalls
          cases before with
          | nil => cases heq
          | cons b before =>
              rw [List.cons_append, List.cons.injEq] at heq
              obtain ⟨k, hk⟩ := hcalls b List.mem_cons_self
              rw [hk] at heq
              cases heq.1
      | call j =>
          rw [opened, List.mem_cons, ih]
          constructor
          · rintro (rfl | ⟨before, after, rfl, hcalls⟩)
            · exact ⟨[], es, rfl, by simp⟩
            · refine ⟨.call j :: before, after, rfl, ?_⟩
              simpa using hcalls
          · rintro ⟨before, after, heq, hcalls⟩
            cases before with
            | nil =>
                left
                cases heq
                rfl
            | cons b before =>
                right
                rw [List.cons_append, List.cons.injEq] at heq
                exact ⟨before, after, heq.2, fun m hm ↦ hcalls m (List.mem_cons_of_mem b hm)⟩

/-- The open operations of a history are those that nothing precedes. -/
theorem mem_opened_iff_not_before {es : List (Mark ι)} {i : ι} (hnodup : es.Nodup) :
    i ∈ opened es ↔ .call i ∈ es ∧ ∀ j, ¬ Before es (.ret j) (.call i) := by
  rw [mem_opened]
  constructor
  · rintro ⟨before, after, rfl, hcalls⟩
    refine ⟨by simp, fun j hbefore ↦ ?_⟩
    -- the return would stand among the calls, or the call twice
    rcases List.sublist_append_iff.mp hbefore with ⟨l₁, l₂, heq, h₁, h₂⟩
    cases l₁ with
    | cons x l₁ =>
        rw [List.cons_append, List.cons.injEq] at heq
        have hx : x ∈ before := h₁.subset List.mem_cons_self
        obtain ⟨k, hk⟩ := hcalls x hx
        rw [← heq.1] at hk
        cases hk
    | nil =>
        rw [List.nil_append] at heq
        subst heq
        have hcall : Mark.call i ∈ after := by
          cases h₂ with
          | cons _ h₂ => exact h₂.subset (by simp)
        have hdistinct := (List.nodup_append.mp hnodup).2.1
        exact (List.nodup_cons.mp hdistinct).1 hcall
  · rintro ⟨hmem, hnone⟩
    obtain ⟨before, after, rfl⟩ := List.append_of_mem hmem
    refine ⟨before, after, rfl, fun m hm ↦ ?_⟩
    cases m with
    | call j => exact ⟨j, rfl⟩
    | ret j =>
        exfalso
        apply hnone j
        exact (List.singleton_sublist.mpr hm).append
          (List.singleton_sublist.mpr List.mem_cons_self)

section Without

variable [DecidableEq ι]

/-- The history without the operations in `L`. -/
def without (es : List (Mark ι)) (L : Finset ι) : List (Mark ι) :=
  es.filter fun m ↦ m.id ∉ L

theorem mem_without {es : List (Mark ι)} {L : Finset ι} {m : Mark ι} :
    m ∈ without es L ↔ m ∈ es ∧ m.id ∉ L := by
  rw [without, List.mem_filter, decide_eq_true_iff]

theorem before_without {es : List (Mark ι)} {L : Finset ι} {x y : Mark ι} :
    Before (without es L) x y ↔ Before es x y ∧ x.id ∉ L ∧ y.id ∉ L := by
  constructor
  · intro h
    exact ⟨h.trans List.filter_sublist, (mem_without.mp (h.subset (by simp))).2,
      (mem_without.mp (h.subset (by simp))).2⟩
  · rintro ⟨h, hx, hy⟩
    have hfilter := h.filter fun m ↦ decide (m.id ∉ L)
    rw [List.filter_eq_self.mpr] at hfilter
    · exact hfilter
    · simp [hx, hy]

@[simp] theorem without_empty (es : List (Mark ι)) : without es ∅ = es := by
  simp [without]

theorem without_insert (es : List (Mark ι)) (L : Finset ι) (i : ι) :
    without es (insert i L) = (without es L).filter fun m ↦ m.id ≠ i := by
  rw [without, without, List.filter_filter]
  apply List.filter_congr
  intro m _
  simp [not_or]

namespace Complete

variable {es : List (Mark ι)}

theorem without (h : Complete es) (L : Finset ι) : Complete (without es L) where
  nodup := h.nodup.filter _
  paired m hm := by
    obtain ⟨hmem, hnot⟩ := mem_without.mp hm
    exact before_without.mpr ⟨h.paired m hmem, hnot, hnot⟩

omit [DecidableEq ι] in
/-- What is not over yet ends with a return. -/
theorem exists_ret_mem (h : Complete es) (hne : es ≠ []) : ∃ i, .ret i ∈ es := by
  obtain ⟨m, hm⟩ := List.exists_mem_of_ne_nil es hne
  exact ⟨m.id, (h.paired m hm).subset (by simp)⟩

end Complete

end Without

/-- Operations with the numbers below `n` leave two marks each. -/
theorem Complete.length_eq {es : List (Mark Nat)} (h : Complete es) {n : Nat}
    (hids : ∀ i, .call i ∈ es ↔ i < n) : es.length = 2 * n := by
  have hrets : ∀ i, .ret i ∈ es ↔ i < n := by
    intro i
    rw [← hids]
    constructor
    · exact fun hret ↦ (h.paired _ hret).subset List.mem_cons_self
    · exact fun hcall ↦ (h.paired _ hcall).subset (List.mem_cons_of_mem _ List.mem_cons_self)
  have hperm : es.Perm ((List.range n).map .call ++ (List.range n).map .ret) := by
    rw [List.perm_ext_iff_of_nodup h.nodup]
    · intro m
      cases m with
      | call i => simp [hids]
      | ret i => simp [hrets]
    · apply List.Nodup.append
      · exact List.nodup_range.map fun i j heq ↦ by cases heq; rfl
      · exact List.nodup_range.map fun i j heq ↦ by cases heq; rfl
      · simp [List.Disjoint]
  rw [hperm.length_eq, List.length_append, List.length_map, List.length_map, List.length_range]
  omega

/-! ## Sequential orders -/

/-- The operations of `order` take effect one after the other; nothing of the history is left out that
ended before one of them began.  Later operations may still be missing. -/
structure PartialLinearization (next : S → ι → Option S) (es : List (Mark ι)) (s : S)
    (order : List ι) : Prop where
  nodup : order.Nodup
  called : ∀ i ∈ order, .call i ∈ es
  /-- What has returned before `i` is called takes effect before `i`. -/
  realTime : ∀ earlier i later, order = earlier ++ i :: later →
    ∀ j, Before es (.ret j) (.call i) → j ∈ earlier
  legal : ∃ t, run next s order = some t

/-- Every operation of the history takes effect. -/
structure FullLinearization (next : S → ι → Option S) (es : List (Mark ι)) (s : S) (order : List ι) :
    Prop extends PartialLinearization next es s order where
  all : ∀ i, .call i ∈ es → i ∈ order

section Runs

variable [DecidableEq ι] {next : S → ι → Option S} {es : List (Mark ι)}

/-- The operations of `order` can be taken one after the other, each while it is open, when those in
`L` have been taken already. -/
def Runs (next : S → ι → Option S) (es : List (Mark ι)) : Finset ι → S → List ι → Prop
  | _, _, [] => True
  | L, s, i :: order =>
    i ∈ opened (without es L) ∧ ∃ t, next s i = some t ∧ Runs next es (insert i L) t order

theorem runs_concat {L : Finset ι} {s t : S} {order : List ι} {i : ι}
    (hruns : Runs next es L s order) (hrun : run next s order = some t)
    (hopen : i ∈ opened (without es (L ∪ order.toFinset))) {u : S} (hnext : next t i = some u) :
    Runs next es L s (order ++ [i]) := by
  induction order generalizing L s with
  | nil =>
      rw [run_nil, Option.some.injEq] at hrun
      subst hrun
      rw [List.toFinset_nil, Finset.union_empty] at hopen
      exact ⟨hopen, u, hnext, trivial⟩
  | cons j order ih =>
      obtain ⟨hj, v, hv, hrest⟩ := hruns
      obtain ⟨v', hv', hrun'⟩ := run_cons.mp hrun
      rw [hv, Option.some.injEq] at hv'
      subst hv'
      refine ⟨hj, v, hv, ih hrest hrun' ?_⟩
      rwa [List.toFinset_cons, Finset.union_insert, ← Finset.insert_union] at hopen

/-- The conditions of `Runs`, each for the whole order. -/
theorem runs_iff (hes : Complete es) {L : Finset ι} {s : S} {order : List ι} :
    Runs next es L s order ↔ order.Nodup ∧ (∀ i ∈ order, .call i ∈ es ∧ i ∉ L) ∧
      (∀ earlier i later, order = earlier ++ i :: later →
        ∀ j, Before es (.ret j) (.call i) → j ∈ L ∨ j ∈ earlier) ∧
      ∃ t, run next s order = some t := by
  induction order generalizing L s with
  | nil => simp [Runs]
  | cons i order ih =>
      have hopen : i ∈ opened (without es L) ↔ (.call i ∈ es ∧ i ∉ L) ∧
          ∀ j, Before es (.ret j) (.call i) → j ∈ L := by
        rw [mem_opened_iff_not_before (hes.without L).nodup, mem_without]
        apply and_congr_right
        intro hi
        apply forall_congr'
        intro j
        rw [before_without, Mark.id_ret, Mark.id_call]
        constructor
        · intro hnone hbefore
          by_contra hj
          exact hnone ⟨hbefore, hj, hi.2⟩
        · rintro hfirst ⟨hbefore, hj, _⟩
          exact hj (hfirst hbefore)
      rw [Runs, hopen]
      simp only [ih, List.nodup_cons, List.forall_mem_cons, run_cons, Finset.mem_insert]
      constructor
      · rintro ⟨⟨hi, hfirst⟩, t, ht, hnodup, hmem, htime, u, hu⟩
        refine ⟨⟨fun hin ↦ ?_, hnodup⟩, ⟨hi, fun j hj ↦ ?_⟩, ?_, u, t, ht, hu⟩
        · exact (hmem i hin).2 (Or.inl rfl)
        · exact ⟨(hmem j hj).1, fun hL ↦ (hmem j hj).2 (Or.inr hL)⟩
        · intro earlier k later heq j hbefore
          cases earlier with
          | nil =>
              rw [List.nil_append, List.cons.injEq] at heq
              rw [← heq.1] at hbefore
              exact Or.inl (hfirst j hbefore)
          | cons e earlier =>
              rw [List.cons_append, List.cons.injEq] at heq
              rw [← heq.1, List.mem_cons]
              have hearly := htime earlier k later heq.2 j hbefore
              rwa [or_assoc, or_left_comm] at hearly
      · rintro ⟨⟨hnot, hnodup⟩, ⟨hi, hmem⟩, htime, u, t, ht, hu⟩
        refine ⟨⟨hi, fun j hbefore ↦ ?_⟩, t, ht, hnodup, fun j hj ↦ ?_, ?_, u, hu⟩
        · simpa using htime [] i order rfl j hbefore
        · refine ⟨(hmem j hj).1, ?_⟩
          rintro (rfl | hL)
          · exact hnot hj
          · exact (hmem j hj).2 hL
        · intro earlier k later heq j hbefore
          have hearly := htime (i :: earlier) k later (by rw [heq, List.cons_append]) j hbefore
          rw [List.mem_cons] at hearly
          rwa [or_assoc, or_left_comm]

theorem runs_iff_partialLinearization (hes : Complete es) {s : S} {order : List ι} :
    Runs next es ∅ s order ↔ PartialLinearization next es s order := by
  rw [runs_iff hes]
  constructor
  · rintro ⟨hnodup, hmem, htime, hlegal⟩
    refine ⟨hnodup, fun i hi ↦ (hmem i hi).1, ?_, hlegal⟩
    intro earlier i later heq j hbefore
    simpa using htime earlier i later heq j hbefore
  · intro h
    refine ⟨h.nodup, fun i hi ↦ ⟨h.called i hi, Finset.notMem_empty i⟩, ?_, h.legal⟩
    intro earlier i later heq j hbefore
    exact Or.inr (h.realTime earlier i later heq j hbefore)

theorem without_eq_nil_iff (hes : Complete es) {L : Finset ι} :
    without es L = [] ↔ ∀ i, .call i ∈ es → i ∈ L := by
  constructor
  · intro hnil i hi
    by_contra hnot
    have := mem_without.mpr ⟨hi, hnot⟩
    rw [hnil] at this
    cases this
  · intro hall
    apply List.eq_nil_iff_forall_not_mem.mpr
    intro m hm
    obtain ⟨hmem, hnot⟩ := mem_without.mp hm
    exact hnot (hall m.id ((hes.paired m hmem).subset (by simp)))

theorem fullLinearization_iff (hes : Complete es) {s : S} {order : List ι} :
    FullLinearization next es s order ↔
      Runs next es ∅ s order ∧ without es order.toFinset = [] := by
  rw [runs_iff_partialLinearization hes, without_eq_nil_iff hes]
  simp only [List.mem_toFinset]
  exact ⟨fun h ↦ ⟨h.toPartialLinearization, h.all⟩, fun h ↦ ⟨h.1, h.2⟩⟩

omit [DecidableEq ι] in
/-- A linearization of the whole history, with the order of time as a relation between pairs. -/
theorem fullLinearization_iff_pairwise (hes : Complete es) {s : S} {order : List ι} :
    FullLinearization next es s order ↔
      order.Nodup ∧ (∀ i, i ∈ order ↔ .call i ∈ es) ∧
        order.Pairwise (fun i j ↦ ¬ Before es (.ret j) (.call i)) ∧
        ∃ t, run next s order = some t := by
  constructor
  · intro h
    refine ⟨h.nodup, fun i ↦ ⟨h.called i, h.all i⟩, ?_, h.legal⟩
    apply List.pairwise_iff_forall_sublist.mpr
    intro i j hij hbefore
    obtain ⟨earlier, later, rfl⟩ := List.append_of_mem (hij.subset List.mem_cons_self)
    have hj : j ∈ earlier := h.realTime earlier i later rfl j hbefore
    have hji : [j, i].Sublist (earlier ++ i :: later) :=
      (List.singleton_sublist.mpr hj).append (List.singleton_sublist.mpr List.mem_cons_self)
    exact not_sublist_swap h.nodup hij hji
  · rintro ⟨hnodup, hmem, htime, hlegal⟩
    refine ⟨⟨hnodup, fun i ↦ (hmem i).mp, ?_, hlegal⟩, fun i ↦ (hmem i).mpr⟩
    rintro earlier i later rfl j hbefore
    have hret : Mark.ret j ∈ es := hbefore.subset List.mem_cons_self
    have hj : j ∈ earlier ++ i :: later :=
      (hmem j).mpr ((hes.paired _ hret).subset List.mem_cons_self)
    rcases List.mem_append.mp hj with hin | hin
    · exact hin
    · exfalso
      rcases List.mem_cons.mp hin with rfl | hin
      · exact not_sublist_swap hes.nodup hbefore (hes.paired _ hret)
      · have hafter := (List.pairwise_append.mp htime).2.1
        exact (List.pairwise_cons.mp hafter).1 j hin hbefore

end Runs

/-! ## Other names for the operations -/

def Mark.map {κ : Type*} (g : ι → κ) : Mark ι → Mark κ
  | call i => call (g i)
  | ret i => ret (g i)

section Renaming

variable {κ : Type*} {g : ι → κ} {es : List (Mark ι)}

theorem Mark.id_map (m : Mark ι) : (m.map g).id = g m.id := by
  cases m <;> rfl

/-- The operations of the history get different names. -/
def Renames (g : ι → κ) (es : List (Mark ι)) : Prop :=
  ∀ x ∈ es, ∀ y ∈ es, g x.id = g y.id → x.id = y.id

namespace Renames

theorem map_inj (h : Renames g es) {x y : Mark ι} (hx : x ∈ es) (hy : y ∈ es)
    (heq : x.map g = y.map g) : x = y := by
  have hid : x.id = y.id := by
    apply h x hx y hy
    have hids := congrArg Mark.id heq
    rwa [Mark.id_map, Mark.id_map] at hids
  cases x with
  | call i =>
      cases y with
      | call j => exact congrArg Mark.call hid
      | ret j => cases heq
  | ret i =>
      cases y with
      | call j => cases heq
      | ret j => exact congrArg Mark.ret hid

theorem before_map (h : Renames g es) {x y : Mark ι} (hx : x ∈ es) (hy : y ∈ es) :
    Before (es.map (Mark.map g)) (x.map g) (y.map g) ↔ Before es x y := by
  constructor
  · intro hbefore
    obtain ⟨l, hl, hmap⟩ := List.sublist_map_iff.mp hbefore
    have hlength : l.length = 2 := by simpa using (congrArg List.length hmap).symm
    obtain ⟨x', y', rfl⟩ := List.length_eq_two.mp hlength
    simp only [List.map_cons, List.map_nil, List.cons.injEq, and_true] at hmap
    rw [Before, h.map_inj hx (hl.subset (by simp)) hmap.1,
      h.map_inj hy (hl.subset (by simp)) hmap.2]
    exact hl
  · intro hbefore
    exact hbefore.map (Mark.map g)

theorem complete_map (h : Renames g es) (hes : Complete es) : Complete (es.map (Mark.map g)) where
  nodup := List.Nodup.map_on (fun x hx y hy ↦ h.map_inj hx hy) hes.nodup
  paired m hm := by
    obtain ⟨x, hx, rfl⟩ := List.mem_map.mp hm
    rw [Mark.id_map]
    exact (hes.paired x hx).map (Mark.map g)

/-- Who is called under the new names. -/
theorem call_mem_map {k : κ} :
    .call k ∈ es.map (Mark.map g) ↔ ∃ i, .call i ∈ es ∧ g i = k := by
  rw [List.mem_map]
  constructor
  · rintro ⟨m, hm, heq⟩
    cases m with
    | call i =>
        cases heq
        exact ⟨i, hm, rfl⟩
    | ret i => cases heq
  · rintro ⟨i, hi, rfl⟩
    exact ⟨.call i, hi, rfl⟩

theorem run_map {next : S → ι → Option S} {next' : S → κ → Option S} {order : List ι}
    (hnext : ∀ s, ∀ i ∈ order, next' s (g i) = next s i) (s : S) :
    run next' s (order.map g) = run next s order := by
  induction order generalizing s with
  | nil => rfl
  | cons i order ih =>
      simp only [List.map_cons, run, hnext s i List.mem_cons_self]
      split
      · rfl
      · exact ih (fun s j hj ↦ hnext s j (List.mem_cons_of_mem i hj)) _

theorem fullLinearization_map (h : Renames g es) (hes : Complete es) {next : S → ι → Option S}
    {next' : S → κ → Option S} (hnext : ∀ s i, .call i ∈ es → next' s (g i) = next s i) {s : S}
    {order : List ι} (horder : ∀ i ∈ order, .call i ∈ es) :
    FullLinearization next' (es.map (Mark.map g)) s (order.map g) ↔
      FullLinearization next es s order := by
  have hinj : ∀ i ∈ order, ∀ j ∈ order, g i = g j → i = j := fun i hi j hj heq ↦
    h (.call i) (horder i hi) (.call j) (horder j hj) heq
  have hnodup : (order.map g).Nodup ↔ order.Nodup := ⟨List.Nodup.of_map g, List.Nodup.map_on hinj⟩
  have hmem : (∀ k, k ∈ order.map g ↔ .call k ∈ es.map (Mark.map g)) ↔
      ∀ i, i ∈ order ↔ .call i ∈ es := by
    constructor
    · intro hall i
      refine ⟨horder i, fun hi ↦ ?_⟩
      obtain ⟨j, hj, heq⟩ := List.mem_map.mp ((hall (g i)).mpr (call_mem_map.mpr ⟨i, hi, rfl⟩))
      have hji : j = i := h (.call j) (horder j hj) (.call i) hi heq
      rwa [← hji]
    · intro hall k
      rw [List.mem_map, call_mem_map]
      simp only [hall]
  have hpairs : (order.map g).Pairwise
        (fun i j ↦ ¬ Before (es.map (Mark.map g)) (.ret j) (.call i)) ↔
      order.Pairwise fun i j ↦ ¬ Before es (.ret j) (.call i) := by
    rw [List.pairwise_map]
    refine List.Pairwise.iff_of_mem fun hi hj ↦ not_congr ?_
    have hret := (hes.paired _ (horder _ hj)).subset (List.mem_cons_of_mem _ List.mem_cons_self)
    exact h.before_map hret (horder _ hi)
  rw [fullLinearization_iff_pairwise (h.complete_map hes), fullLinearization_iff_pairwise hes,
    run_map fun s i hi ↦ hnext s i (horder i hi), hnodup, hmem, hpairs]

/-- New names do not change whether there is a linearization. -/
theorem exists_fullLinearization_map (h : Renames g es) (hes : Complete es)
    {next : S → ι → Option S} {next' : S → κ → Option S}
    (hnext : ∀ s i, .call i ∈ es → next' s (g i) = next s i) {s : S} :
    (∃ order, FullLinearization next' (es.map (Mark.map g)) s order) ↔
      ∃ order, FullLinearization next es s order := by
  constructor
  · rintro ⟨order, hfull⟩
    obtain ⟨old, hcalled, rfl⟩ := exists_map_eq fun k hk ↦ call_mem_map.mp (hfull.called k hk)
    exact ⟨old, (h.fullLinearization_map hes hnext hcalled).mp hfull⟩
  · rintro ⟨order, hfull⟩
    exact ⟨order.map g, (h.fullLinearization_map hes hnext hfull.called).mpr hfull⟩

end Renames

end Renaming

/-! ## States that cannot be told apart -/

/-- The same orders are legal from both states. -/
def SameFuture (next : S → ι → Option S) (s t : S) : Prop :=
  ∀ order : List ι, (run next s order).isSome = (run next t order).isSome

namespace SameFuture

variable {next : S → ι → Option S} {s t u : S}

theorem refl (s : S) : SameFuture next s s := fun _ ↦ rfl

theorem trans (hst : SameFuture next s t) (htu : SameFuture next t u) : SameFuture next s u :=
  fun order ↦ (hst order).trans (htu order)

/-- States that cannot be told apart take the same steps, to states that cannot be told apart. -/
theorem step (hst : SameFuture next s t) {i : ι} {s' : S} (hs : next s i = some s') :
    ∃ t', next t i = some t' ∧ SameFuture next s' t' := by
  have hone := hst [i]
  cases ht : next t i with
  | none => simp [run, hs, ht] at hone
  | some t' =>
      refine ⟨t', rfl, fun order ↦ ?_⟩
      have hmore := hst (i :: order)
      simpa only [run, hs, ht] using hmore

theorem symm (hst : SameFuture next s t) : SameFuture next t s :=
  fun order ↦ (hst order).symm

/-- The same for another object whose operations are some of these, under other names. -/
theorem of_steps {κ : Type*} {next' : S → κ → Option S}
    (hsteps : ∀ k, (∀ s, next' s k = none) ∨ ∃ i, ∀ s, next' s k = next s i)
    (hst : SameFuture next s t) : SameFuture next' s t := by
  intro order
  induction order generalizing s t with
  | nil => rfl
  | cons k order ih =>
      rcases hsteps k with hnone | ⟨i, hi⟩
      · simp only [run, hnone]
      · simp only [run, hi]
        cases hs : next s i with
        | some s' =>
            obtain ⟨t', ht, hst'⟩ := hst.step hs
            rw [ht]
            exact ih hst'
        | none =>
            cases ht : next t i with
            | none => rfl
            | some t' =>
                obtain ⟨s', hs', _⟩ := hst.symm.step ht
                rw [hs] at hs'
                cases hs'

end SameFuture

end Lab6824.Lib
