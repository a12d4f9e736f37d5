import Mathlib.Data.List.Induction
import Mathlib.Data.List.Nodup
import Mathlib.Order.Lattice

/-!
# Sessions — requests that clients number and may repeat

Every client numbers its requests and has one of them outstanding at a time, so in a log of requests
the numbers of a client occur for the first time in increasing order, while any request may come again
later.  A server that remembers the highest number it has seen from each client can then tell the
repeated requests from the new ones.
-/

namespace Lab6824.Lib

variable {α C : Type*} [DecidableEq C] (ident : α → C × Int)

/-- The requests that repeat neither one of `seen` nor an earlier one of the log. -/
def firstsFrom : List (C × Int) → List α → List α
  | _, [] => []
  | seen, a :: log =>
    if ident a ∈ seen then firstsFrom (ident a :: seen) log
    else a :: firstsFrom (ident a :: seen) log

/-- The first occurrence of every request. -/
def firsts (log : List α) : List α :=
  firstsFrom ident [] log

/-- The numbers of a client are positive, and occur for the first time in increasing order. -/
structure Sequential (log : List α) : Prop where
  positive : ∀ a ∈ log, 1 ≤ (ident a).2
  increasing : (firsts ident log).Pairwise fun a b ↦
    (ident a).1 = (ident b).1 → (ident a).2 < (ident b).2

variable {ident}

theorem firstsFrom_append (seen : List (C × Int)) (log log' : List α) :
    firstsFrom ident seen (log ++ log') =
      firstsFrom ident seen log ++ firstsFrom ident ((log.map ident).reverse ++ seen) log' := by
  induction log generalizing seen with
  | nil => rfl
  | cons a log ih =>
      have hseen : ((a :: log).map ident).reverse ++ seen =
          (log.map ident).reverse ++ (ident a :: seen) := by simp
      rw [hseen, List.cons_append, firstsFrom, firstsFrom, ih]
      split <;> rfl

theorem firsts_concat (log : List α) (a : α) :
    firsts ident (log ++ [a]) =
      if ident a ∈ log.map ident then firsts ident log else firsts ident log ++ [a] := by
  rw [firsts, firstsFrom_append, firsts, firstsFrom]
  simp only [List.append_nil, List.mem_reverse, firstsFrom]
  split
  · rw [List.append_nil]
  · rfl

/-- Every request has a first occurrence. -/
theorem exists_mem_firsts {log : List α} {i : C × Int} (h : i ∈ log.map ident) :
    ∃ a ∈ firsts ident log, ident a = i := by
  induction log using List.reverseRecOn with
  | nil => cases h
  | append_singleton log c ih =>
      rw [List.map_append, List.mem_append, List.map_singleton, List.mem_singleton] at h
      rw [firsts_concat]
      by_cases hrep : ident c ∈ log.map ident
      · rw [if_pos hrep]
        apply ih
        rcases h with hlog | rfl
        · exact hlog
        · exact hrep
      · rw [if_neg hrep]
        rcases h with hlog | rfl
        · obtain ⟨a, ha, hid⟩ := ih hlog
          exact ⟨a, List.mem_append_left _ ha, hid⟩
        · exact ⟨c, List.mem_append_right _ (List.mem_singleton_self c), rfl⟩

theorem mem_of_mem_firsts {log : List α} {a : α} (h : a ∈ firsts ident log) : a ∈ log := by
  induction log using List.reverseRecOn with
  | nil => cases h
  | append_singleton log c ih =>
      rw [firsts_concat] at h
      split at h
      · exact List.mem_append_left _ (ih h)
      · rcases List.mem_append.mp h with hold | hlast
        · exact List.mem_append_left _ (ih hold)
        · exact List.mem_append_right _ hlast

theorem nodup_firsts (log : List α) : ((firsts ident log).map ident).Nodup := by
  induction log using List.reverseRecOn with
  | nil => exact List.nodup_nil
  | append_singleton log c ih =>
      rw [firsts_concat]
      split
      · exact ih
      · rename_i hnew
        rw [List.map_append, List.map_singleton]
        refine List.nodup_append.mpr ⟨ih, List.nodup_singleton _, fun i hi j hj heq ↦ hnew ?_⟩
        rw [heq, List.mem_singleton.mp hj] at hi
        obtain ⟨a, ha, hid⟩ := List.mem_map.mp hi
        rw [← hid]
        exact List.mem_map_of_mem (mem_of_mem_firsts ha)

/-- Where a repetition is the same request, every request is among the first occurrences once. -/
theorem count_firsts [DecidableEq α] {log : List α} {a : α} (h : a ∈ log)
    (hsame : ∀ b ∈ log, ident b = ident a → b = a) : (firsts ident log).count a = 1 := by
  obtain ⟨b, hb, hid⟩ := exists_mem_firsts (List.mem_map_of_mem (f := ident) h)
  rw [hsame b (mem_of_mem_firsts hb) hid] at hb
  exact List.count_eq_one_of_mem (nodup_firsts log).of_map hb

namespace Sequential

variable {log log' : List α} {a : α}

theorem of_append (h : Sequential ident (log ++ log')) : Sequential ident log where
  positive := fun a ha ↦ h.positive a (List.mem_append_left _ ha)
  increasing := by
    have hinc := h.increasing
    rw [firsts, firstsFrom_append] at hinc
    exact (List.pairwise_append.mp hinc).1

theorem take (h : Sequential ident log) (k : Nat) : Sequential ident (log.take k) := by
  rw [← List.take_append_drop k log] at h
  exact h.of_append

/-- A request is a repetition exactly if its client has had a number at least as high before. -/
theorem repeated_iff (h : Sequential ident (log ++ [a])) :
    ident a ∈ log.map ident ↔
      ∃ b ∈ log, (ident b).1 = (ident a).1 ∧ (ident a).2 ≤ (ident b).2 := by
  constructor
  · intro hrep
    obtain ⟨b, hb, hid⟩ := List.mem_map.mp hrep
    exact ⟨b, hb, by rw [hid], by rw [hid]⟩
  · rintro ⟨b, hb, hclient, hle⟩
    by_contra hnew
    have hinc := h.increasing
    rw [firsts_concat, if_neg hnew] at hinc
    obtain ⟨c, hc, hid⟩ := exists_mem_firsts (List.mem_map_of_mem (f := ident) hb)
    have hlt := (List.pairwise_append.mp hinc).2.2 c hc a (List.mem_singleton_self a)
    rw [hid] at hlt
    exact absurd (hlt hclient) (not_lt.mpr hle)

end Sequential

end Lab6824.Lib
