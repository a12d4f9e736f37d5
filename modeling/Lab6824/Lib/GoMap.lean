import Mathlib.Data.Finmap
import Mathlib.Data.List.MinMax
import Mathlib.Data.List.Sort

/-!
# GoMap — maps whose keys are visited in any order

A Go map is a `Finmap`.  `for k := range m` visits the keys of `m` in an order that the runtime
chooses afresh at each execution; a `RangeOrder` is such a choice, for every set of keys, and a loop
over a map takes one as argument.
-/

namespace Lab6824.Lib

variable {K V : Type*}

/-- The order in which one execution of a loop visits the keys. -/
structure RangeOrder (K : Type*) where
  visit : Finset K → List K
  nodup : ∀ s, (visit s).Nodup
  mem_visit : ∀ s k, k ∈ visit s ↔ k ∈ s

instance decidableForallKeys {K : Type*} [DecidableEq K] {β : K → Type*} (m : Finmap β)
    (p : K → Prop) [DecidablePred p] : Decidable (∀ k ∈ m, p k) :=
  decidable_of_iff (∀ k ∈ m.keys, p k) (by simp only [Finmap.mem_keys])

/-- Keys in increasing order. -/
def RangeOrder.increasing : RangeOrder Int where
  visit s := Quot.liftOn s.val (fun ks ↦ ks.insertionSort (· ≤ ·)) fun ks ks' h ↦
    List.Perm.eq_of_pairwise (fun _ _ _ _ ↦ le_antisymm) (List.pairwise_insertionSort _ ks)
      (List.pairwise_insertionSort _ ks')
      ((List.perm_insertionSort _ ks).trans (h.trans (List.perm_insertionSort _ ks').symm))
  nodup := by
    rintro ⟨⟨ks⟩, hks⟩
    exact (List.perm_insertionSort (· ≤ ·) ks).nodup_iff.mpr hks
  mem_visit := by
    rintro ⟨⟨ks⟩, hks⟩ k
    exact (List.perm_insertionSort (· ≤ ·) ks).mem_iff

/-- Keys in decreasing order. -/
def RangeOrder.decreasing : RangeOrder Int where
  visit s := (increasing.visit s).reverse
  nodup s := List.nodup_reverse.mpr (increasing.nodup s)
  mem_visit s k := by rw [List.mem_reverse, increasing.mem_visit]

/-- Keys in the order of some list of them. -/
noncomputable def RangeOrder.arbitrary (K : Type*) : RangeOrder K where
  visit := Finset.toList
  nodup := Finset.nodup_toList
  mem_visit _ _ := Finset.mem_toList

theorem RangeOrder.perm (order order' : RangeOrder K) (s : Finset K) :
    (order.visit s).Perm (order'.visit s) := by
  rw [List.perm_ext_iff_of_nodup (order.nodup s) (order'.nodup s)]
  intro k
  rw [order.mem_visit, order'.mem_visit]

/-- A loop whose rounds can be exchanged has the same result in every order. -/
theorem RangeOrder.foldl_eq {S : Type*} (order order' : RangeOrder K) {s : Finset K}
    {round : S → K → S}
    (hcomm : ∀ a ∈ s, ∀ b ∈ s, ∀ st, round (round st a) b = round (round st b) a) (st : S) :
    (order.visit s).foldl round st = (order'.visit s).foldl round st := by
  apply (order.perm order' s).foldl_eq'
  intro a ha b hb st
  exact hcomm a ((order.mem_visit s a).mp ha) b ((order.mem_visit s b).mp hb) st

section Index

variable [DecidableEq K]

/-- `m[k]` for a map of slices: nil where the key is absent. -/
def index (m : Finmap fun _ : K ↦ List V) (k : K) : List V :=
  (m.lookup k).getD []

theorem index_insert_self (m : Finmap fun _ : K ↦ List V) (k : K) (xs : List V) :
    index (m.insert k xs) k = xs := by
  rw [index, Finmap.lookup_insert]
  rfl

theorem index_insert_of_ne {m : Finmap fun _ : K ↦ List V} {k k' : K} (h : k' ≠ k)
    (xs : List V) : index (m.insert k xs) k' = index m k' := by
  rw [index, Finmap.lookup_insert_of_ne m h, index]

theorem index_insert_insert (m : Finmap fun _ : K ↦ List V) (a b : K) (xs ys : List V) (k : K) :
    index ((m.insert a xs).insert b ys) k =
      if k = b then ys else if k = a then xs else index m k := by
  by_cases hb : k = b
  · rw [if_pos hb, hb, index_insert_self]
  · rw [if_neg hb, index_insert_of_ne hb]
    by_cases ha : k = a
    · rw [if_pos ha, ha, index_insert_self]
    · rw [if_neg ha, index_insert_of_ne ha]

theorem index_of_notMem {m : Finmap fun _ : K ↦ List V} {k : K} (h : k ∉ m) : index m k = [] := by
  rw [index, Finmap.lookup_eq_none.mpr h]
  rfl

/-- `for k, v := range src` with `m[k] = v` as its body. -/
theorem lookup_foldl_insert (src m : Finmap fun _ : K ↦ List V) (ks : List K)
    (hks : ∀ k ∈ ks, k ∈ src) (k : K) :
    (ks.foldl (fun m k ↦ m.insert k (index src k)) m).lookup k =
      if k ∈ ks then src.lookup k else m.lookup k := by
  induction ks generalizing m with
  | nil => simp
  | cons k' ks ih =>
      rw [List.foldl_cons, ih _ fun k hk ↦ hks k (List.mem_cons_of_mem _ hk)]
      by_cases hk : k ∈ ks
      · rw [if_pos hk, if_pos (List.mem_cons_of_mem _ hk)]
      · rw [if_neg hk]
        by_cases heq : k = k'
        · obtain ⟨v, hv⟩ := Finmap.mem_iff.mp (hks k' List.mem_cons_self)
          rw [heq, Finmap.lookup_insert, if_pos List.mem_cons_self, index, hv]
          rfl
        · rw [Finmap.lookup_insert_of_ne _ heq, if_neg (by simp [heq, hk])]

/-- The map that such a loop makes does not depend on the order. -/
theorem foldl_insert_order (order order' : RangeOrder K) (src m : Finmap fun _ : K ↦ List V) :
    (order.visit src.keys).foldl (fun m k ↦ m.insert k (index src k)) m =
      (order'.visit src.keys).foldl (fun m k ↦ m.insert k (index src k)) m := by
  apply RangeOrder.foldl_eq
  intro a _ b _ m
  by_cases hab : a = b
  · rw [hab]
  · exact Finmap.insert_insert_of_ne m hab

theorem mem_of_lookup_eq {m m' : Finmap fun _ : K ↦ List V} {k : K}
    (h : m.lookup k = m'.lookup k) : k ∈ m ↔ k ∈ m' := by
  rw [← Finmap.lookup_isSome, ← Finmap.lookup_isSome, h]

end Index

/-- A loop that keeps the best element it has seen, in whatever form, computes `List.argmin`. -/
theorem foldl_eq_argmin {α β γ : Type*} [LinearOrder β] {f : α → β} {encode : Option α → γ}
    {round : γ → α → γ} {p : α → Prop} [DecidablePred p]
    (hskip : ∀ o a, ¬ p a → round (encode o) a = encode o)
    (hround : ∀ o a, p a →
      round (encode o) a = encode (List.argAux (fun b c ↦ f b < f c) o a))
    (xs : List α) : xs.foldl round (encode none) = encode ((xs.filter p).argmin f) := by
  have key : ∀ o, xs.foldl round (encode o) =
      encode ((xs.filter p).foldl (List.argAux fun b c ↦ f b < f c) o) := by
    induction xs with
    | nil => exact fun o ↦ rfl
    | cons x xs ih =>
        intro o
        by_cases hx : p x
        · rw [List.foldl_cons, hround o x hx, ih, List.filter_cons_of_pos (by simpa using hx)]
          rfl
        · rw [List.foldl_cons, hskip o x hx, ih, List.filter_cons_of_neg (by simpa using hx)]
  exact key none

/-- Which element is the best does not depend on the order of the list, if no two are equally good. -/
theorem argmin_eq_of_perm {α β : Type*} [LinearOrder β] {f : α → β} (hf : Function.Injective f)
    {xs ys : List α} (h : xs.Perm ys) : xs.argmin f = ys.argmin f := by
  cases hx : xs.argmin f with
  | none =>
      rw [List.argmin_eq_none] at hx
      rw [hx, List.nil_perm] at h
      rw [h, List.argmin_nil]
  | some a =>
      cases hy : ys.argmin f with
      | none =>
          rw [List.argmin_eq_none] at hy
          rw [hy, List.perm_nil] at h
          rw [h, List.argmin_nil] at hx
          cases hx
      | some b =>
          have hle := List.le_of_mem_argmin (h.mem_iff.mpr (List.argmin_mem hy)) hx
          have hge := List.le_of_mem_argmin (h.mem_iff.mp (List.argmin_mem hx)) hy
          rw [hf (le_antisymm hle hge)]

end Lab6824.Lib
