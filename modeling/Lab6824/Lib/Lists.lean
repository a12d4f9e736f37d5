import Mathlib.Data.List.Basic
import Mathlib.Data.List.Forall2
import Mathlib.Logic.Function.Basic

/-!
# Lists — facts about lists and maps that the modules below share
-/

namespace Lab6824.Lib

/-- A fallible map over a list that succeeds has succeeded at each element. -/
theorem mapM_forall₂ {α β : Type*} {f : α → Option β} {xs : List α} {ys : List β}
    (h : xs.mapM f = some ys) : List.Forall₂ (fun x y ↦ f x = some y) xs ys := by
  induction xs generalizing ys with
  | nil =>
      rw [List.mapM_nil] at h
      rw [← Option.some.inj h]
      exact .nil
  | cons x xs ih =>
      rw [List.mapM_cons] at h
      obtain ⟨y, hy, hrest⟩ := Option.bind_eq_some_iff.mp h
      obtain ⟨ys', hys, hcons⟩ := Option.bind_eq_some_iff.mp hrest
      rw [← Option.some.inj hcons]
      exact .cons hy (ih hys)

theorem getElem?_of_isPrefix {α : Type*} {xs ys : List α} {k : Nat} {x : α} (h : xs <+: ys)
    (hx : xs[k]? = some x) : ys[k]? = some x := by
  obtain ⟨hlt, rfl⟩ := List.getElem?_eq_some_iff.mp hx
  exact List.prefix_iff_getElem?.mp h k hlt

/-- What a map with one new value holds. -/
theorem update_eq_some {α β : Type*} [DecidableEq α] {f : α → Option β} {a a' : α} {b x : β}
    (h : Function.update f a (some b) a' = some x) : a' = a ∧ x = b ∨ a' ≠ a ∧ f a' = some x := by
  by_cases ha : a' = a
  · rw [ha, Function.update_self, Option.some.injEq] at h
    exact Or.inl ⟨ha, h.symm⟩
  · rw [Function.update_of_ne ha] at h
    exact Or.inr ⟨ha, h⟩

/-- What holds of a value of a map with one new value holds of the old value, or of the new one. -/
theorem of_update {α β : Type*} [DecidableEq α] {f : α → β} {a a' : α} {b : β} {p : β → Prop}
    (h : p (Function.update f a b a')) : p (f a') ∨ a' = a ∧ p b := by
  by_cases ha : a' = a
  · rw [ha, Function.update_self] at h
    exact Or.inr ⟨ha, h⟩
  · rw [Function.update_of_ne ha] at h
    exact Or.inl h

/-- Two members of a list stand in one order or the other. -/
theorem sublist_or_sublist {α : Type*} {l : List α} {x y : α} (hx : x ∈ l) (hy : y ∈ l) (hne : x ≠ y) :
    [x, y].Sublist l ∨ [y, x].Sublist l := by
  obtain ⟨before, after, rfl⟩ := List.append_of_mem hx
  rcases List.mem_append.mp hy with hmem | hmem
  · right
    exact (List.singleton_sublist.mpr hmem).append (List.singleton_sublist.mpr List.mem_cons_self)
  · left
    rcases List.mem_cons.mp hmem with heq | hmem
    · exact absurd heq.symm hne
    · exact ((List.singleton_sublist.mpr hmem).cons_cons x).trans (List.sublist_append_right _ _)

theorem sublist_of_lt {α : Type*} {l : List α} {p q : Nat} {x y : α} (hx : l[p]? = some x)
    (hy : l[q]? = some y) (hlt : p < q) : [x, y].Sublist l := by
  obtain ⟨hq, rfl⟩ := List.getElem?_eq_some_iff.mp hy
  have hbefore : x ∈ l.take q := by
    apply List.mem_of_getElem?
    rw [List.getElem?_take, if_pos hlt, hx]
  have hafter : l[q] ∈ l.drop q := by
    rw [List.drop_eq_getElem_cons hq]
    exact List.mem_cons_self
  have happend := (List.singleton_sublist.mpr hbefore).append (List.singleton_sublist.mpr hafter)
  rwa [List.take_append_drop] at happend

/-- And in a list without repetition not in both. -/
theorem not_sublist_swap {α : Type*} {l : List α} {x y : α} (hnodup : l.Nodup)
    (h : [x, y].Sublist l) : ¬ [y, x].Sublist l := by
  induction l with
  | nil => cases h
  | cons m l ih =>
      obtain ⟨hm, hnodup⟩ := List.nodup_cons.mp hnodup
      intro hback
      rcases List.sublist_cons_iff.mp h with hxy | ⟨_, heq, hy⟩
      · rcases List.sublist_cons_iff.mp hback with hyx | ⟨_, heq, _⟩
        · exact ih hnodup hxy hyx
        · cases heq
          exact hm (hxy.subset (by simp))
      · cases heq
        rcases List.sublist_cons_iff.mp hback with hyx | ⟨_, heq, _⟩
        · exact hm (hyx.subset (by simp))
        · cases heq
          exact hm (hy.subset (by simp))

/-- A list whose members have preimages is the image of a list. -/
theorem exists_map_eq {α β : Type*} {f : α → β} {p : α → Prop} {l : List β}
    (h : ∀ b ∈ l, ∃ a, p a ∧ f a = b) : ∃ as : List α, (∀ a ∈ as, p a) ∧ as.map f = l := by
  induction l with
  | nil => exact ⟨[], by simp, rfl⟩
  | cons b l ih =>
      rw [List.forall_mem_cons] at h
      obtain ⟨a, ha, rfl⟩ := h.1
      obtain ⟨as, has, rfl⟩ := ih h.2
      exact ⟨a :: as, List.forall_mem_cons.mpr ⟨ha, has⟩, rfl⟩

theorem Forall₂.exists_mem_left {α β : Type*} {R : α → β → Prop} {as : List α} {bs : List β}
    (h : List.Forall₂ R as bs) {b : β} (hb : b ∈ bs) : ∃ a ∈ as, R a b := by
  induction h with
  | nil => cases hb
  | cons hR _ ih =>
      rcases List.mem_cons.mp hb with rfl | hb
      · exact ⟨_, List.mem_cons_self, hR⟩
      · obtain ⟨a, ha, hab⟩ := ih hb
        exact ⟨a, List.mem_cons_of_mem _ ha, hab⟩

theorem Forall₂.imp_of_mem {α β : Type*} {R Q : α → β → Prop} {as : List α} {bs : List β}
    (h : List.Forall₂ R as bs) (hRQ : ∀ a ∈ as, ∀ b ∈ bs, R a b → Q a b) : List.Forall₂ Q as bs := by
  induction h with
  | nil => exact .nil
  | cons hR _ ih =>
      refine .cons (hRQ _ List.mem_cons_self _ List.mem_cons_self hR) (ih fun a ha b hb ↦ ?_)
      exact hRQ a (List.mem_cons_of_mem _ ha) b (List.mem_cons_of_mem _ hb)

section After

variable {S O : Type*} {next : S → O → S} {start : S} {log log' : List O} {n : Nat} {op : O}

/-- The state after the first `n` operations of a log. -/
def after (next : S → O → S) (start : S) (log : List O) (n : Nat) : S :=
  (log.take n).foldl next start

theorem after_succ (h : log[n]? = some op) :
    after next start log (n + 1) = next (after next start log n) op := by
  unfold after
  rw [List.take_add_one, h, Option.toList_some, List.foldl_append]
  rfl

theorem after_succ_of_none (h : log[n]? = none) :
    after next start log (n + 1) = after next start log n := by
  unfold after
  rw [List.take_add_one, h, Option.toList_none, List.append_nil]

theorem after_of_isPrefix (h : log <+: log') (hn : n ≤ log.length) :
    after next start log' n = after next start log n := by
  obtain ⟨rest, rfl⟩ := h
  unfold after
  rw [List.take_append_of_le_length hn]

end After

/-- A relation between the members of one list, carried over to those of another. -/
theorem Forall₂.pairwise {α β : Type*} {R : α → β → Prop} {P : α → α → Prop} {Q : β → β → Prop}
    (hPQ : ∀ a b a' b', R a b → R a' b' → P a a' → Q b b') {as : List α} {bs : List β}
    (h : List.Forall₂ R as bs) (hP : as.Pairwise P) : bs.Pairwise Q := by
  induction h with
  | nil => exact List.Pairwise.nil
  | cons hR hrest ih =>
      rw [List.pairwise_cons] at hP ⊢
      refine ⟨fun b' hb' ↦ ?_, ih hP.2⟩
      obtain ⟨a', ha', hR'⟩ := Forall₂.exists_mem_left hrest hb'
      exact hPQ _ _ _ _ hR hR' (hP.1 a' ha')

end Lab6824.Lib
