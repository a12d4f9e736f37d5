import Mathlib.Algebra.BigOperators.Ring.Finset
import Mathlib.Algebra.Order.BigOperators.Group.Finset
import Mathlib.Data.Fintype.BigOperators
import Mathlib.Tactic.Linarith
import Mathlib.Tactic.Ring

/-!
# Loads — assignments of finitely many items to owners

`load f k` is the number of items that the assignment `f` gives to `k`.  An assignment is level on a
set of owners if their loads differ by at most one.  Moving an item from an owner to one that has at
least two items less lowers the sum of the squares of the loads, so that only finitely many such moves
can follow one another.
-/

namespace Lab6824.Lib

variable {ι κ : Type*} [Fintype ι] [DecidableEq κ]

def load (f : ι → κ) (k : κ) : ℕ :=
  (Finset.univ.filter fun i ↦ f i = k).card

/-- The loads of any two of the owners differ by at most one. -/
def Level (K : Finset κ) (f : ι → κ) : Prop :=
  ∀ a ∈ K, ∀ b ∈ K, load f a ≤ load f b + 1

instance (K : Finset κ) (f : ι → κ) : Decidable (Level K f) := by
  unfold Level
  infer_instance

def potential (K : Finset κ) (f : ι → κ) : ℕ :=
  ∑ k ∈ K, load f k * load f k

theorem load_le_card (f : ι → κ) (k : κ) : load f k ≤ Fintype.card ι :=
  Finset.card_filter_le _ _

theorem load_eq_zero {f : ι → κ} {k : κ} (h : ∀ i, f i ≠ k) : load f k = 0 := by
  rw [load, Finset.card_eq_zero, Finset.filter_eq_empty_iff]
  exact fun i _ ↦ h i

theorem load_ne_zero {f : ι → κ} {k : κ} {i : ι} (h : f i = k) : load f k ≠ 0 :=
  Finset.card_ne_zero_of_mem (Finset.mem_filter.mpr ⟨Finset.mem_univ i, h⟩)

theorem exists_of_load_ne_zero {f : ι → κ} {k : κ} (h : load f k ≠ 0) : ∃ i, f i = k := by
  by_contra hno
  push Not at hno
  exact h (load_eq_zero hno)

/-- The loads of some owners count the items that they own. -/
theorem sum_load_eq_card (N : Finset κ) (g : ι → κ) :
    ∑ k ∈ N, load g k = (Finset.univ.filter fun i ↦ g i ∈ N).card := by
  rw [Finset.card_eq_sum_card_fiberwise (s := Finset.univ.filter fun i ↦ g i ∈ N) (t := N) (f := g)
    fun i hi ↦ (Finset.mem_filter.mp hi).2]
  apply Finset.sum_congr rfl
  intro k hk
  rw [load, Finset.filter_filter]
  congr 1
  ext i
  simp only [Finset.mem_filter, Finset.mem_univ, true_and]
  constructor
  · rintro rfl
    exact ⟨hk, rfl⟩
  · exact And.right

/-- Every item has one owner. -/
theorem sum_load {K : Finset κ} {f : ι → κ} (h : ∀ i, f i ∈ K) :
    ∑ k ∈ K, load f k = Fintype.card ι := by
  rw [sum_load_eq_card, Finset.filter_true_of_mem fun i _ ↦ h i, Finset.card_univ]

theorem potential_le {K : Finset κ} {f : ι → κ} (h : ∀ i, f i ∈ K) :
    potential K f ≤ Fintype.card ι * Fintype.card ι := by
  calc potential K f ≤ ∑ k ∈ K, Fintype.card ι * load f k := by
        apply Finset.sum_le_sum
        intro k _
        exact Nat.mul_le_mul_right _ (load_le_card f k)
    _ = Fintype.card ι * Fintype.card ι := by
        rw [← Finset.mul_sum, sum_load h]

/-! ## Moving one item -/

section Move

variable [DecidableEq ι] {f : ι → κ} {i : ι} {a b : κ}

theorem load_move_to (hi : f i = a) (hab : a ≠ b) :
    load (Function.update f i b) b = load f b + 1 := by
  have hins : (Finset.univ.filter fun j ↦ Function.update f i b j = b) =
      insert i (Finset.univ.filter fun j ↦ f j = b) := by
    ext j
    by_cases hj : j = i
    · simp [hj]
    · simp [hj]
  rw [load, hins, Finset.card_insert_of_notMem (by simp [hi, hab])]
  rfl

theorem load_move_from (hi : f i = a) (hab : a ≠ b) :
    load (Function.update f i b) a + 1 = load f a := by
  have hins : (Finset.univ.filter fun j ↦ f j = a) =
      insert i (Finset.univ.filter fun j ↦ Function.update f i b j = a) := by
    ext j
    by_cases hj : j = i
    · simp [hj, hi]
    · simp [hj]
  rw [load, load, hins, Finset.card_insert_of_notMem (by simp [hab.symm])]

theorem load_move_other (hi : f i = a) {k : κ} (ha : k ≠ a) (hb : k ≠ b) :
    load (Function.update f i b) k = load f k := by
  rw [load, load]
  congr 1
  ext j
  by_cases hj : j = i
  · simp [hj, hi, ha.symm, hb.symm]
  · simp [Function.update_of_ne hj]

/-- The moved item leaves the two loads closer to each other. -/
theorem potential_move_lt {K : Finset κ} (ha : a ∈ K) (hb : b ∈ K) (hi : f i = a) (hab : a ≠ b)
    (hgap : load f b + 2 ≤ load f a) : potential K (Function.update f i b) < potential K f := by
  have hbK : b ∈ K.erase a := Finset.mem_erase.mpr ⟨hab.symm, hb⟩
  have hrest : ∑ k ∈ (K.erase a).erase b,
      load (Function.update f i b) k * load (Function.update f i b) k =
        ∑ k ∈ (K.erase a).erase b, load f k * load f k := by
    apply Finset.sum_congr rfl
    intro k hk
    have hkb := (Finset.mem_erase.mp hk).1
    have hka := (Finset.mem_erase.mp (Finset.mem_erase.mp hk).2).1
    rw [load_move_other hi hka hkb]
  rw [potential, potential, ← Finset.add_sum_erase K _ ha, ← Finset.add_sum_erase (K.erase a) _ hbK,
    ← Finset.add_sum_erase K (fun k ↦ load f k * load f k) ha,
    ← Finset.add_sum_erase (K.erase a) (fun k ↦ load f k * load f k) hbK, hrest]
  have hto := load_move_to hi hab
  have hfrom := load_move_from hi hab
  rw [hto]
  nlinarith

end Move

/-! ## Level assignments -/

/-- On a level set of owners nobody has more than one item exactly when there are at least as many
owners as items. -/
theorem Level.le_one_iff {K : Finset κ} {f : ι → κ} (h : Level K f) (hK : ∀ i, f i ∈ K) :
    (∀ k ∈ K, load f k ≤ 1) ↔ Fintype.card ι ≤ K.card := by
  rw [← sum_load hK]
  constructor
  · intro hle
    calc ∑ k ∈ K, load f k ≤ ∑ _k ∈ K, 1 := Finset.sum_le_sum hle
      _ = K.card := (Finset.card_eq_sum_ones K).symm
  · intro hcard k hk
    by_contra hgt
    -- then every owner has an item, and `k` has two
    have hlt : ∑ _k ∈ K, 1 < ∑ k ∈ K, load f k := by
      apply Finset.sum_lt_sum
      · intro j hj
        have hkj := h k hk j hj
        omega
      · exact ⟨k, hk, by omega⟩
    rw [← Finset.card_eq_sum_ones] at hlt
    omega

/-- A larger set of owners is level exactly when it adds nobody, or nobody has more than one item. -/
theorem Level.superset_iff {K G : Finset κ} {f : ι → κ} (h : Level K f) (hK : ∀ i, f i ∈ K)
    (hsub : K ⊆ G) : Level G f ↔ G ⊆ K ∨ Fintype.card ι ≤ K.card := by
  have hidle : ∀ g, g ∉ K → load f g = 0 := fun g hg ↦
    load_eq_zero fun i hi ↦ hg (hi ▸ hK i)
  constructor
  · intro hG
    by_cases hGK : G ⊆ K
    · exact Or.inl hGK
    · right
      rw [Finset.not_subset] at hGK
      obtain ⟨g, hg, hgK⟩ := hGK
      rw [← h.le_one_iff hK]
      intro k hk
      have hkg := hG k (hsub hk) g hg
      rw [hidle g hgK] at hkg
      omega
  · rintro (hGK | hcard) a ha b hb
    · exact h a (hGK ha) b (hGK hb)
    · have hle := (h.le_one_iff hK).mpr hcard
      by_cases haK : a ∈ K
      · have hone := hle a haK
        omega
      · rw [hidle a haK]
        omega

end Lab6824.Lib
