import Lab6824.Lib.System
import Mathlib.Data.List.MinMax

/-!
# Intervals — operations with the times of their call and their return

A history is a list of operations, in no particular order; `call` and `ret` tell when each of them
began and when it ended.  `Explains` says that the operations could have happened one after the other.

`exists_explains_iff` is the locality of this notion: operations on several objects have an
explanation if the operations on each object have one.
-/

namespace Lab6824.Lib

variable {α S T K : Type*} [LinearOrder T] (call ret : α → T)

/-- The operations can have taken effect one after the other, in this order. -/
structure Explains (next : S → α → Option S) (s : S) (history order : List α) : Prop where
  perm : order.Perm history
  /-- No operation takes effect before one that has returned when it is called. -/
  realTime : order.Pairwise fun a b ↦ ¬ ret b < call a
  legal : ∃ t, run next s order = some t

/-! ## Several objects -/

section Keys

variable [DecidableEq K] (key : α → K)

/-- One object for each key. -/
def byKey (next : S → α → Option S) (s : K → S) (a : α) : Option (K → S) :=
  (next (s (key a)) a).map (Function.update s (key a))

variable {key} {next : S → α → Option S}

omit [LinearOrder T] in
/-- Each object sees the operations on it only. -/
theorem run_byKey {s t : K → S} {order : List α} :
    run (byKey key next) s order = some t ↔
      ∀ k, run next (s k) (order.filter fun a ↦ key a = k) = some (t k) := by
  induction order generalizing s with
  | nil => simp [run_nil, funext_iff]
  | cons a order ih =>
      rw [run_cons]
      constructor
      · rintro ⟨u, hu, hrun⟩ k
        obtain ⟨v, hv, rfl⟩ := Option.map_eq_some_iff.mp hu
        have hk := ih.mp hrun k
        by_cases hkey : key a = k
        · rw [List.filter_cons_of_pos (by simpa using hkey), run_cons]
          rw [hkey, Function.update_self] at hk
          exact ⟨v, hkey ▸ hv, hk⟩
        · rw [List.filter_cons_of_neg (by simpa using hkey)]
          rwa [Function.update_of_ne (Ne.symm hkey)] at hk
      · intro hall
        have ha := hall (key a)
        rw [List.filter_cons_of_pos (by simp), run_cons] at ha
        obtain ⟨v, hv, hrest⟩ := ha
        refine ⟨Function.update s (key a) v, by rw [byKey, hv]; rfl, ih.mpr fun k ↦ ?_⟩
        by_cases hkey : key a = k
        · rw [← hkey, Function.update_self]
          exact hrest
        · have hk := hall k
          rwa [List.filter_cons_of_neg (by simpa using hkey),
            ← Function.update_of_ne (Ne.symm hkey) v s] at hk

variable {call ret} {history : List α} {orders : K → List α}

/-- Of the operations that come first among those on their object, one may come first of all: it is
the one on the object of the operation that returns first. -/
theorem exists_first (htime : ∀ a ∈ history, call a ≤ ret a)
    (hperm : ∀ k, (orders k).Perm (history.filter fun a ↦ key a = k))
    (hreal : ∀ k, (orders k).Pairwise fun a b ↦ ¬ ret b < call a) (hne : history ≠ []) :
    ∃ a rest, a ∈ history ∧ orders (key a) = a :: rest ∧ ∀ b ∈ history, ¬ ret b < call a := by
  have hmem : ∀ k a, a ∈ orders k ↔ a ∈ history ∧ key a = k := fun k a ↦ by
    rw [(hperm k).mem_iff, List.mem_filter, decide_eq_true_iff]
  have hsome : history.argmin ret ≠ none := fun hnone ↦ hne (List.argmin_eq_none.mp hnone)
  obtain ⟨m, hm⟩ := Option.ne_none_iff_exists'.mp hsome
  have hin : m ∈ orders (key m) := (hmem _ m).mpr ⟨List.argmin_mem hm, rfl⟩
  cases horder : orders (key m) with
  | nil =>
      rw [horder] at hin
      cases hin
  | cons a rest =>
      obtain ⟨ha, hkey⟩ := (hmem (key m) a).mp (horder ▸ List.mem_cons_self)
      refine ⟨a, rest, ha, by rw [hkey, horder], fun b hb hlt ↦ ?_⟩
      have hmlt : ret m < call a := (List.le_of_mem_argmin hb hm).trans_lt hlt
      rw [horder] at hin
      rcases List.mem_cons.mp hin with rfl | hlater
      · exact absurd (htime m ha) (not_le.mpr hmlt)
      · have hpairs := hreal (key m)
        rw [horder, List.pairwise_cons] at hpairs
        exact hpairs.1 m hlater hmlt

/-- Orders of the operations on each object, merged to one order of all. -/
theorem exists_merge (htime : ∀ a ∈ history, call a ≤ ret a)
    (hperm : ∀ k, (orders k).Perm (history.filter fun a ↦ key a = k))
    (hreal : ∀ k, (orders k).Pairwise fun a b ↦ ¬ ret b < call a) :
    ∃ order : List α, order.Perm history ∧ (order.Pairwise fun a b ↦ ¬ ret b < call a) ∧
      ∀ k, order.filter (fun a ↦ key a = k) = orders k := by
  -- the operation that may come first is put first, and the rest are merged in the same way
  induction hlen : history.length generalizing history orders with
  | zero =>
      rw [List.length_eq_zero_iff] at hlen
      subst hlen
      refine ⟨[], List.Perm.nil, List.Pairwise.nil, fun k ↦ ?_⟩
      exact (List.perm_nil.mp (hperm k)).symm
  | succ n ih =>
      have hne : history ≠ [] := fun hnil ↦ by simp [hnil] at hlen
      obtain ⟨a, rest, ha, horder, hfirst⟩ := exists_first htime hperm hreal hne
      obtain ⟨l₁, l₂, rfl⟩ := List.append_of_mem ha
      have hmiddle : (l₁ ++ a :: l₂).Perm (a :: (l₁ ++ l₂)) := List.perm_middle
      have hperm' : ∀ k, (Function.update orders (key a) rest k).Perm
          ((l₁ ++ l₂).filter fun b ↦ key b = k) := by
        intro k
        have hk := (hperm k).trans (hmiddle.filter _)
        by_cases hkey : key a = k
        · subst hkey
          rw [horder, List.filter_cons_of_pos (by simp)] at hk
          rw [Function.update_self]
          exact hk.cons_inv
        · rw [List.filter_cons_of_neg (by simpa using hkey)] at hk
          rwa [Function.update_of_ne (Ne.symm hkey)]
      have hreal' : ∀ k, (Function.update orders (key a) rest k).Pairwise
          fun a b ↦ ¬ ret b < call a := by
        intro k
        by_cases hkey : k = key a
        · have hpairs := hreal (key a)
          rw [horder, List.pairwise_cons] at hpairs
          rw [hkey, Function.update_self]
          exact hpairs.2
        · rw [Function.update_of_ne hkey]
          exact hreal k
      have hlen' : (l₁ ++ l₂).length = n := by
        have := hmiddle.length_eq
        rw [hlen, List.length_cons] at this
        omega
      obtain ⟨order, hmerged, hpairs, hfilter⟩ :=
        ih (fun b hb ↦ htime b (hmiddle.mem_iff.mpr (List.mem_cons_of_mem a hb))) hperm' hreal' hlen'
      refine ⟨a :: order, (hmerged.cons a).trans hmiddle.symm, ?_, fun k ↦ ?_⟩
      · rw [List.pairwise_cons]
        refine ⟨fun b hb ↦ hfirst b ?_, hpairs⟩
        exact hmiddle.mem_iff.mpr (List.mem_cons_of_mem a (hmerged.mem_iff.mp hb))
      · by_cases hkey : key a = k
        · rw [List.filter_cons_of_pos (by simpa using hkey), hfilter, ← hkey, Function.update_self,
            horder]
        · rw [List.filter_cons_of_neg (by simpa using hkey), hfilter,
            Function.update_of_ne (Ne.symm hkey)]

/-- Operations on several objects have an explanation if the operations on each object have one. -/
theorem exists_explains_iff (htime : ∀ a ∈ history, call a ≤ ret a) (s : K → S) :
    (∃ order, Explains call ret (byKey key next) s history order) ↔
      ∀ k, ∃ order, Explains call ret next (s k) (history.filter fun a ↦ key a = k) order := by
  constructor
  · rintro ⟨order, hperm, hreal, t, hrun⟩ k
    exact ⟨order.filter fun a ↦ key a = k, hperm.filter _, hreal.filter _, t k, run_byKey.mp hrun k⟩
  · intro hall
    choose orders horders using hall
    obtain ⟨order, hperm, hreal, hfilter⟩ :=
      exists_merge htime (fun k ↦ (horders k).perm) fun k ↦ (horders k).realTime
    choose t ht using fun k ↦ (horders k).legal
    refine ⟨order, hperm, hreal, t, run_byKey.mpr fun k ↦ ?_⟩
    rw [hfilter, ht]

end Keys

end Lab6824.Lib
