import Mathlib.Data.List.Nodup
import Lab6824.Lib.Loads

/-!
# Levelling — moving items from the most to the least loaded owner

A levelling transfer takes an item from an owner with the highest load to one with the lowest, as long
as the two differ by at least two.  Whoever has received an item never gives one away afterwards, so
every item moves at most once.  If new owners join level ones, items move from old owners to new ones
only, and no level assignment can be reached with fewer moves.
-/

namespace Lab6824.Lib

variable {ι κ : Type*}

structure Transfer (ι κ : Type*) where
  item : ι
  source : κ
  target : κ
  deriving DecidableEq

section Transfers

variable [DecidableEq ι] {f : ι → κ} {t : Transfer ι κ} {ts : List (Transfer ι κ)} {i : ι}

def Transfer.apply (t : Transfer ι κ) (f : ι → κ) : ι → κ :=
  Function.update f t.item t.target

def transferAll (f : ι → κ) (ts : List (Transfer ι κ)) : ι → κ :=
  ts.foldl (fun f t ↦ t.apply f) f

theorem Transfer.apply_item (t : Transfer ι κ) (f : ι → κ) : t.apply f t.item = t.target :=
  Function.update_self ..

theorem Transfer.apply_of_ne (f : ι → κ) (h : i ≠ t.item) : t.apply f i = f i :=
  Function.update_of_ne h _ f

theorem transferAll_of_notMem (f : ι → κ) (h : ∀ t ∈ ts, t.item ≠ i) : transferAll f ts i = f i := by
  induction ts generalizing f with
  | nil => rfl
  | cons t ts ih =>
      have hrest := ih (t.apply f) fun t' ht' ↦ h t' (List.mem_cons_of_mem t ht')
      exact hrest.trans (Transfer.apply_of_ne f (h t List.mem_cons_self).symm)

end Transfers

variable [Fintype ι] [DecidableEq ι] [DecidableEq κ]

structure Levels (K : Finset κ) (f : ι → κ) (t : Transfer ι κ) : Prop where
  owner : f t.item = t.source
  source_mem : t.source ∈ K
  target_mem : t.target ∈ K
  high : ∀ k ∈ K, load f k ≤ load f t.source
  low : ∀ k ∈ K, load f t.target ≤ load f k
  gap : load f t.target + 2 ≤ load f t.source

/-- Every transfer of the list levels the assignment that the ones before it leave. -/
def Levelling (K : Finset κ) : (ι → κ) → List (Transfer ι κ) → Prop
  | _, [] => True
  | f, t :: ts => Levels K f t ∧ Levelling K (t.apply f) ts

variable {K : Finset κ} {f : ι → κ} {t : Transfer ι κ} {ts : List (Transfer ι κ)} {i : ι} {k r : κ}

/-! ## One transfer -/

namespace Levels

omit [DecidableEq ι] in
theorem source_ne_target (h : Levels K f t) : t.source ≠ t.target := by
  intro heq
  have hgap := h.gap
  rw [heq] at hgap
  omega

theorem load_source (h : Levels K f t) : load (t.apply f) t.source + 1 = load f t.source :=
  load_move_from h.owner h.source_ne_target

theorem load_target (h : Levels K f t) : load (t.apply f) t.target = load f t.target + 1 :=
  load_move_to h.owner h.source_ne_target

theorem load_other (h : Levels K f t) (hs : k ≠ t.source) (ht : k ≠ t.target) :
    load (t.apply f) k = load f k :=
  load_move_other h.owner hs ht

omit [DecidableEq ι] in
theorem not_level (h : Levels K f t) : ¬ Level K f := by
  intro hlevel
  have hle := hlevel t.source h.source_mem t.target h.target_mem
  have hgap := h.gap
  omega

theorem owned (h : Levels K f t) (hK : ∀ i, f i ∈ K) (i : ι) : t.apply f i ∈ K := by
  by_cases hi : i = t.item
  · rw [hi, Transfer.apply_item]
    exact h.target_mem
  · rw [Transfer.apply_of_ne f hi]
    exact hK i

end Levels

/-! ## Receivers never give -/

/-- No owner has two items less than `r`. -/
def Low (K : Finset κ) (f : ι → κ) (r : κ) : Prop :=
  ∀ k ∈ K, load f r ≤ load f k + 1

namespace Low

omit [DecidableEq ι] in
theorem source_ne (h : Low K f r) (ht : Levels K f t) : t.source ≠ r := by
  rintro rfl
  have hle := h t.target ht.target_mem
  have hgap := ht.gap
  omega

theorem target (ht : Levels K f t) : Low K (t.apply f) t.target := by
  intro k hk
  have hto := ht.load_target
  have hlow := ht.low k hk
  by_cases hs : k = t.source
  · have hfrom := ht.load_source
    have hgap := ht.gap
    rw [hs]
    omega
  · by_cases htarget : k = t.target
    · rw [htarget]
      omega
    · rw [ht.load_other hs htarget]
      omega

theorem apply (h : Low K f r) (ht : Levels K f t) : Low K (t.apply f) r := by
  by_cases hr : r = t.target
  · rw [hr]
    exact target ht
  · intro k hk
    have hr' := ht.load_other (h.source_ne ht).symm hr
    have hle := h k hk
    by_cases hs : k = t.source
    · -- the source has two more than the target, so still enough for `r`
      have hfrom := ht.load_source
      have hgap := ht.gap
      have hlt := h t.target ht.target_mem
      rw [hs, hr']
      omega
    · by_cases htarget : k = t.target
      · have hto := ht.load_target
        rw [htarget] at hle ⊢
        omega
      · rw [hr', ht.load_other hs htarget]
        exact hle

end Low

namespace Levelling

/-- The items of an owner with a low load stay. -/
theorem untouched (h : Levelling K f ts) (hlow : Low K f (f i)) : ∀ t ∈ ts, t.item ≠ i := by
  induction ts generalizing f with
  | nil => simp
  | cons t ts ih =>
      obtain ⟨ht, hrest⟩ := h
      have hi : i ≠ t.item := by
        rintro rfl
        exact hlow.source_ne ht ht.owner.symm
      have hsame := Transfer.apply_of_ne f hi
      intro t' ht'
      rcases List.mem_cons.mp ht' with rfl | htail
      · exact hi.symm
      · refine ih hrest ?_ t' htail
        rw [hsame]
        exact hlow.apply ht

/-- No item is moved twice. -/
theorem nodup (h : Levelling K f ts) : (ts.map Transfer.item).Nodup := by
  induction ts generalizing f with
  | nil => exact List.nodup_nil
  | cons t ts ih =>
      obtain ⟨ht, hrest⟩ := h
      rw [List.map_cons, List.nodup_cons, List.mem_map]
      refine ⟨?_, ih hrest⟩
      -- the target of the first transfer keeps what it has got
      rintro ⟨t', ht', heq⟩
      refine hrest.untouched ?_ t' ht' heq
      rw [Transfer.apply_item]
      exact Low.target ht

/-- An item that is moved goes from its first owner to its last. -/
theorem moved (h : Levelling K f ts) (ht : t ∈ ts) :
    f t.item = t.source ∧ transferAll f ts t.item = t.target ∧ t.source ≠ t.target := by
  induction ts generalizing f with
  | nil => cases ht
  | cons t' ts ih =>
      have hnodup := h.nodup
      rw [List.map_cons, List.nodup_cons] at hnodup
      obtain ⟨ht', hrest⟩ := h
      rcases List.mem_cons.mp ht with rfl | htail
      · refine ⟨ht'.owner, ?_, ht'.source_ne_target⟩
        have hlast := transferAll_of_notMem (t.apply f) fun t' ht' heq ↦
          hnodup.1 (List.mem_map.mpr ⟨t', ht', heq⟩)
        exact hlast.trans (t.apply_item f)
      · obtain ⟨hfirst, hlast, hne⟩ := ih hrest htail
        have hi : t.item ≠ t'.item := fun heq ↦
          hnodup.1 (heq ▸ List.mem_map_of_mem (f := Transfer.item) htail)
        rw [Transfer.apply_of_ne f hi] at hfirst
        exact ⟨hfirst, hlast, hne⟩

theorem owned (h : Levelling K f ts) (hK : ∀ i, f i ∈ K) (i : ι) : transferAll f ts i ∈ K := by
  induction ts generalizing f with
  | nil => exact hK i
  | cons t ts ih => exact ih h.2 (h.1.owned hK)

/-- If all others have low loads, `r` gives everything. -/
theorem source_eq (h : Levelling K f ts) (hlow : ∀ k ∈ K, k ≠ r → Low K f k) :
    ∀ t ∈ ts, t.source = r := by
  induction ts generalizing f with
  | nil => simp
  | cons t ts ih =>
      obtain ⟨ht, hrest⟩ := h
      intro t' ht'
      rcases List.mem_cons.mp ht' with rfl | htail
      · by_contra hne
        exact (hlow _ ht.source_mem hne).source_ne ht rfl
      · exact ih hrest (fun k hk hne ↦ (hlow k hk hne).apply ht) t' htail

/-- A level assignment is not changed. -/
theorem eq_nil (h : Levelling K f ts) (hlevel : Level K f) : ts = [] := by
  cases ts with
  | nil => rfl
  | cons t ts => exact absurd hlevel h.1.not_level

end Levelling

/-! ## Old and new owners -/

/-- The old owners are level, the new ones are level, and no new one has more than an old one. -/
structure Joined (O N : Finset κ) (f : ι → κ) : Prop where
  old : Level O f
  new : Level N f
  le : ∀ a ∈ N, ∀ b ∈ O, load f a ≤ load f b

section Join

variable {O N : Finset κ}

omit [DecidableEq ι] in
/-- A transfer goes from an old owner to a new one. -/
theorem Joined.transfer (h : Joined O N f) (ht : Levels K f t) (hsub : K ⊆ O ∪ N) :
    t.source ∉ N ∧ t.source ∈ O ∧ t.target ∉ O ∧ t.target ∈ N := by
  have hgap := ht.gap
  have htarget : t.target ∉ O := by
    intro hO
    rcases Finset.mem_union.mp (hsub ht.source_mem) with hs | hs
    · have hle := h.old _ hs _ hO
      omega
    · have hle := h.le _ hs _ hO
      omega
  have htarget' := (Finset.mem_union.mp (hsub ht.target_mem)).resolve_left htarget
  have hsource : t.source ∉ N := by
    intro hN
    have hle := h.new _ hN _ htarget'
    omega
  exact ⟨hsource, (Finset.mem_union.mp (hsub ht.source_mem)).resolve_right hsource, htarget, htarget'⟩

theorem Joined.apply (h : Joined O N f) (ht : Levels K f t) (hK : ∀ i, f i ∈ K) (hN : N ⊆ K)
    (hsub : K ⊆ O ∪ N) : Joined O N (t.apply f) := by
  obtain ⟨hsN, hsO, htO, htN⟩ := h.transfer ht hsub
  have hgap := ht.gap
  have hfrom := ht.load_source
  have hto := ht.load_target
  -- an old owner outside `K` has no items at all
  have hhigh : ∀ b ∈ O, load f b ≤ load f t.source := by
    intro b _
    by_cases hb : b ∈ K
    · exact ht.high b hb
    · have hzero : load f b = 0 := load_eq_zero fun i hi ↦ hb (hi ▸ hK i)
      omega
  have hold : ∀ b ∈ O, b ≠ t.source → load (t.apply f) b = load f b := fun b hb hs ↦
    ht.load_other hs fun heq ↦ htO (heq ▸ hb)
  have hnew : ∀ a ∈ N, a ≠ t.target → load (t.apply f) a = load f a := fun a ha hne ↦
    ht.load_other (fun heq ↦ hsN (heq ▸ ha)) hne
  refine ⟨fun a ha b hb ↦ ?_, fun a ha b hb ↦ ?_, fun a ha b hb ↦ ?_⟩
  · -- among the old owners one that has most has given an item
    have hab := h.old a ha b hb
    have ha' := hhigh a ha
    by_cases has : a = t.source
    · by_cases hbs : b = t.source
      · rw [has, hbs]
        omega
      · rw [has] at hab ⊢
        rw [hold b hb hbs]
        omega
    · rw [hold a ha has]
      by_cases hbs : b = t.source
      · rw [hbs]
        omega
      · rw [hold b hb hbs]
        exact hab
  · -- among the new owners one that has fewest has got it
    have hab := h.new a ha b hb
    have hb' := ht.low b (hN hb)
    by_cases hat : a = t.target
    · by_cases hbt : b = t.target
      · rw [hat, hbt]
        omega
      · rw [hat, hnew b hb hbt]
        omega
    · rw [hnew a ha hat]
      by_cases hbt : b = t.target
      · rw [hbt] at hab ⊢
        omega
      · rw [hnew b hb hbt]
        exact hab
  · -- between the two there was a gap of two
    have hab := h.le a ha b hb
    have hat' := h.new a ha _ htN
    have hbs' := h.old _ hsO b hb
    by_cases hat : a = t.target
    · by_cases hbs : b = t.source
      · rw [hat, hbs]
        omega
      · rw [hat, hold b hb hbs]
        omega
    · rw [hnew a ha hat]
      by_cases hbs : b = t.source
      · rw [hbs]
        omega
      · rw [hold b hb hbs]
        exact hab

theorem Levelling.joined (h : Levelling K f ts) (hjoin : Joined O N f) (hK : ∀ i, f i ∈ K)
    (hN : N ⊆ K) (hsub : K ⊆ O ∪ N) :
    (∀ t ∈ ts, t.target ∈ N) ∧ Joined O N (transferAll f ts) := by
  induction ts generalizing f with
  | nil => exact ⟨by simp, hjoin⟩
  | cons t ts ih =>
      obtain ⟨ht, hrest⟩ := h
      obtain ⟨htargets, hlast⟩ := ih hrest (hjoin.apply ht hK hN hsub) (ht.owned hK)
      refine ⟨fun t' ht' ↦ ?_, hlast⟩
      rcases List.mem_cons.mp ht' with rfl | htail
      · exact (hjoin.transfer ht hsub).2.2.2
      · exact htargets t' htail

/-! ## The fewest moves -/

/-- The number of items that have another owner. -/
def movedCount (f g : ι → κ) : ℕ :=
  (Finset.univ.filter fun i ↦ g i ≠ f i).card

omit [DecidableEq ι] in
/-- A level assignment gives the new owners at least what they have where no new owner has more than
an old one. -/
theorem Joined.sum_le (hdisj : Disjoint O N) {g : ι → κ} (h : Joined O N f)
    (hf : ∀ i, f i ∈ O ∪ N) (hg : ∀ i, g i ∈ O ∪ N) (hlevel : Level (O ∪ N) g) :
    ∑ k ∈ N, load f k ≤ ∑ k ∈ N, load g k := by
  by_contra hlt
  push Not at hlt
  have hf' := sum_load hf
  have hg' := sum_load hg
  rw [Finset.sum_union hdisj] at hf' hg'
  -- some new owner has less under `g` than under `f`, so some old one has more
  obtain ⟨a, ha, hless⟩ := Finset.exists_lt_of_sum_lt hlt
  obtain ⟨b, hb, hmore⟩ := Finset.exists_lt_of_sum_lt
    (show ∑ k ∈ O, load f k < ∑ k ∈ O, load g k by omega)
  have hab := h.le a ha b hb
  have hgap := hlevel b (Finset.mem_union_left _ hb) a (Finset.mem_union_right _ ha)
  omega

omit [DecidableEq ι] in
/-- If items have only been given to new owners, no level assignment moves fewer. -/
theorem movedCount_le (hdisj : Disjoint O N) {f' g : ι → κ} (hf : ∀ i, f i ∈ O)
    (hmoved : ∀ i, f' i = f i ∨ f' i ∈ N) (h : Joined O N f') (hg : ∀ i, g i ∈ O ∪ N)
    (hlevel : Level (O ∪ N) g) : movedCount f f' ≤ movedCount f g := by
  have hf' : ∀ i, f' i ∈ O ∪ N := by
    intro i
    rcases hmoved i with hsame | hnew
    · rw [hsame]
      exact Finset.mem_union_left _ (hf i)
    · exact Finset.mem_union_right _ hnew
  have hnew : ∀ e : ι → κ, ∀ i, e i ∈ N → e i ≠ f i := by
    intro e i hi heq
    exact Finset.disjoint_left.mp hdisj (hf i) (heq ▸ hi)
  calc movedCount f f' ≤ (Finset.univ.filter fun i ↦ f' i ∈ N).card := by
        apply Finset.card_le_card
        intro i hi
        rw [Finset.mem_filter] at hi ⊢
        exact ⟨hi.1, (hmoved i).resolve_left hi.2⟩
    _ = ∑ k ∈ N, load f' k := (sum_load_eq_card N f').symm
    _ ≤ ∑ k ∈ N, load g k := h.sum_le hdisj hf' hg hlevel
    _ = (Finset.univ.filter fun i ↦ g i ∈ N).card := sum_load_eq_card N g
    _ ≤ movedCount f g := by
        apply Finset.card_le_card
        intro i hi
        rw [Finset.mem_filter] at hi ⊢
        exact ⟨hi.1, hnew g i hi.2⟩

end Join

end Lab6824.Lib
