import Lab6824.Lib.Lists
import Mathlib.Data.List.Sort

/-!
# Sorting — sorts that need not be stable

A library sort promises a rearrangement without inversions with respect to `less`; the order of
elements of which neither is less than the other is its own choice.  A `Sorter` is such a choice.
-/

namespace Lab6824.Lib

variable {α : Type*}

structure Sorter (less : α → α → Bool) where
  sort : List α → List α
  perm : ∀ l, (sort l).Perm l
  sorted : ∀ l, (sort l).Pairwise fun a b ↦ less b a = false

namespace Sorter

variable {less : α → α → Bool} (sorter : Sorter less)

theorem not_less {l : List α} {x y : α} (h : [x, y].Sublist (sorter.sort l)) : less y x = false :=
  (List.pairwise_cons.mp ((sorter.sorted l).sublist h)).1 y (List.mem_singleton.mpr rfl)

/-- An element that is less than another comes before it. -/
theorem before_of_less {l : List α} {x y : α} (hx : x ∈ l) (hy : y ∈ l) (hne : x ≠ y)
    (h : less x y = true) : [x, y].Sublist (sorter.sort l) := by
  rcases sublist_or_sublist ((sorter.perm l).mem_iff.mpr hx) ((sorter.perm l).mem_iff.mpr hy) hne
    with hsub | hsub
  · exact hsub
  · rw [sorter.not_less hsub] at h
    cases h

/-- The sort that keeps the order of what is not comparable. -/
def insertion (hasymm : ∀ a b, less a b = true → less b a = false)
    (htrans : ∀ a b c, less b a = false → less c b = false → less c a = false) : Sorter less where
  sort := List.insertionSort fun a b ↦ less b a = false
  perm l := List.perm_insertionSort _ l
  sorted l := by
    have htotal : Std.Total fun a b ↦ less b a = false :=
      ⟨fun a b ↦ by
        cases h : less b a with
        | false => exact Or.inl rfl
        | true => exact Or.inr (hasymm b a h)⟩
    have htrans : IsTrans α fun a b ↦ less b a = false := ⟨htrans⟩
    exact List.pairwise_insertionSort _ l

end Sorter

end Lab6824.Lib
