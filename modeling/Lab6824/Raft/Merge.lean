import Lab6824.Lib.Replication
import Lab6824.Raft.Sections

/-!
# Merge — the log that `AppendEntries` leaves behind

The entries of an `AppendEntries` request are a leader's log `L` from `PrevLogIndex` on.  Where two
logs agree whenever they have an entry of the same term at the same place, the merge loop ends with
the old log, if `L` is a prefix of it, and with `L` otherwise.
-/

namespace Lab6824

variable {n : Nat} {C σ : Type}

instance : Lib.Termed (Log C) := ⟨Log.term⟩

open Lib (lastTerm Matches)

/-- The term that the consistency check compares, with the dummy entry as the entry at `0`. -/
theorem lastTerm_take {d : Log C} {log : List (Log C)} {p : Nat} {e : Log C}
    (hd : d.term = 0) (h : (d :: log)[p]? = some e) : lastTerm (log.take p) = e.term := by
  cases p with
  | zero =>
      rw [List.getElem?_cons_zero, Option.some.injEq] at h
      rw [← h, hd]
      rfl
  | succ q =>
      rw [List.getElem?_cons_succ] at h
      obtain ⟨hlt, hget⟩ := List.getElem?_eq_some_iff.mp h
      rw [List.take_succ_eq_append_getElem hlt, hget, Lib.lastTerm_concat]
      rfl

/-! ## The merge loop -/

/-- What the result of the loop from `index` on says: it stops at a conflict, or after the last entry
that both lists have. -/
structure ScanSpec (log es : List (Log C)) (index : Nat) (r : Nat × Bool) : Prop where
  le_entries : r.1 ≤ index + es.length
  le_log : r.1 ≤ log.length
  same : ∀ j, index + j < r.1 → (log[index + j]?).map Log.term = (es[j]?).map Log.term
  conflict : r.2 = true → ∃ j, j < es.length ∧
    (log[index + j]?).map Log.term ≠ (es[j]?).map Log.term
  done : r.2 = false → r.1 = index + es.length ∨ r.1 = log.length

theorem mergeScan_spec (log es : List (Log C)) (index : Nat) (hle : index ≤ log.length) :
    ScanSpec log es index (Raft.mergeScan log index es) := by
  induction es generalizing index with
  | nil =>
      have hscan : Raft.mergeScan log index [] = (index, false) := rfl
      rw [hscan]
      exact ⟨le_refl _, hle, fun j hj ↦ by omega, by simp, fun _ ↦ Or.inl rfl⟩
  | cons e es ih =>
      cases hget : log[index]? with
      | none =>
          have hend : log.length ≤ index := List.getElem?_eq_none_iff.mp hget
          have hscan : Raft.mergeScan log index (e :: es) = (index, false) := by
            simp only [Raft.mergeScan, hget]
          rw [hscan]
          exact ⟨Nat.le_add_right _ _, hle, fun j hj ↦ by omega, by simp,
            fun _ ↦ Or.inr (le_antisymm hle hend)⟩
      | some l =>
          by_cases hterm : l.term = e.term
          · have hscan : Raft.mergeScan log index (e :: es) = Raft.mergeScan log (index + 1) es := by
              simp only [Raft.mergeScan, hget, hterm, ne_eq, not_true_eq_false, if_false]
            have hrest := ih (index + 1) (List.getElem?_eq_some_iff.mp hget).1
            have hshift : ∀ j, index + (j + 1) = index + 1 + j := fun j ↦ by omega
            rw [hscan]
            refine ⟨?_, hrest.le_log, fun j hj ↦ ?_, fun hc ↦ ?_, fun hc ↦ ?_⟩
            · have hlen := hrest.le_entries
              rw [List.length_cons]
              omega
            · cases j with
              | zero => simp [hget, hterm]
              | succ j =>
                  rw [hshift, List.getElem?_cons_succ]
                  exact hrest.same j (by omega)
            · obtain ⟨j, hj, hne⟩ := hrest.conflict hc
              refine ⟨j + 1, Nat.succ_lt_succ hj, ?_⟩
              rw [hshift, List.getElem?_cons_succ]
              exact hne
            · rw [List.length_cons]
              rcases hrest.done hc with h | h
              · exact Or.inl (by omega)
              · exact Or.inr h
          · have hscan : Raft.mergeScan log index (e :: es) = (index, true) := by
              simp only [Raft.mergeScan, hget, ne_eq, hterm, not_false_eq_true, if_true]
            rw [hscan]
            refine ⟨Nat.le_add_right _ _, hle, fun j hj ↦ by omega, fun _ ↦ ⟨0, by simp, ?_⟩, by simp⟩
            simpa [hget] using hterm

section Merge

/- A follower's log `d :: log`, a leader's log `L`, and the request that carries `L` from `p` on. -/
variable {g : Lib.Replica (Fin n) (Log C)} {rf : Raft n C σ} {d : Log C} {log L : List (Log C)}
  {args : AppendEntriesArgs n C} {p : Nat}

/-- Logs that pass the consistency check at `p` agree up to it. -/
theorem take_eq_of_check (hlog : Matches g log) (hL : Matches g L) (hpL : p ≤ L.length)
    (hpl : p ≤ log.length) (hprev : lastTerm (log.take p) = lastTerm (L.take p)) :
    log.take p = L.take p := by
  by_cases hp : p = 0
  · rw [hp, List.take_zero, List.take_zero]
  · have hlen : (log.take p).length = p := List.length_take_of_le hpl
    refine hlog.agree hL (List.take_prefix p log) (List.take_prefix p L) ?_ ?_ hprev
    · intro hnil
      rw [hnil, List.length_nil] at hlen
      omega
    · rw [hlen, List.length_take_of_le hpL]

/-- A conflict in the loop is a place where the two logs differ. -/
theorem not_isPrefix_of_conflict (hrf : rf.log = d :: log) (hes : args.entries = L.drop p)
    {j : Nat} (hj : j < args.entries.length)
    (hne : (rf.log[p + 1 + j]?).map Log.term ≠ (args.entries[j]?).map Log.term) :
    ¬ L <+: log := by
  intro hpre
  have hlt := hpre.length_le
  rw [hes, List.length_drop] at hj
  apply hne
  rw [hes, List.getElem?_drop, hrf, show p + 1 + j = p + j + 1 by omega,
    List.getElem?_cons_succ, List.getElem?_eq_getElem (show p + j < log.length by omega),
    List.getElem?_eq_getElem (show p + j < L.length by omega), hpre.getElem (by omega)]

/-- A loop that has found the last entry of the leader has found all of them. -/
theorem isPrefix_of_scan (hrf : rf.log = d :: log) (hlog : Matches g log) (hL : Matches g L)
    (htake : log.take p = L.take p) (hes : args.entries = L.drop p) (hpL : p ≤ L.length)
    (hLlen : L.length ≤ log.length)
    (hsame : ∀ j, j < args.entries.length →
      (rf.log[p + 1 + j]?).map Log.term = (args.entries[j]?).map Log.term) : L <+: log := by
  rw [List.prefix_iff_eq_take]
  by_cases hp : p = L.length
  · rw [← hp, htake, hp, List.take_length]
  · have hterm := hsame (L.length - 1 - p) (by rw [hes, List.length_drop]; omega)
    rw [hes, List.getElem?_drop, hrf,
      show p + 1 + (L.length - 1 - p) = L.length - 1 + 1 by omega, List.getElem?_cons_succ,
      show p + (L.length - 1 - p) = L.length - 1 by omega] at hterm
    have hne : L ≠ [] := by
      rintro rfl
      simp only [List.length_nil] at hp hpL
      omega
    refine hL.agree hlog (List.prefix_refl L) (List.take_prefix _ _) hne
      (List.length_take_of_le hLlen).symm ?_
    rw [lastTerm, lastTerm, List.getLast?_eq_getElem?, List.getLast?_eq_getElem?,
      List.length_take_of_le hLlen, List.getElem?_take_of_lt (by omega)]
    exact congrArg (Option.getD · 0) hterm.symm

/-- The log after the merge: the old one if it extends the leader's, the leader's otherwise. -/
theorem mergeEntries_accepts (gob : Gob (RaftImage n C) σ) (hrf : rf.log = d :: log)
    (hlog : Matches g log) (hL : Matches g L) (hpL : p ≤ L.length) (hpl : p ≤ log.length)
    (hprev : lastTerm (log.take p) = lastTerm (L.take p)) (hes : args.entries = L.drop p) :
    ∃ M, (rf.mergeEntries gob args p).log = d :: M ∧
      (L <+: log ∧ M = log ∨ ¬ L <+: log ∧ M = L) := by
  have htake := take_eq_of_check hlog hL hpL hpl hprev
  have hloglen : rf.log.length = log.length + 1 := by rw [hrf, List.length_cons]
  have hspec := mergeScan_spec rf.log args.entries (p + 1) (by omega)
  have hlen : args.entries.length = L.length - p := by rw [hes, List.length_drop]
  by_cases hcond : (Raft.mergeScan rf.log (p + 1) args.entries).2 = true ∨
      (Raft.mergeScan rf.log (p + 1) args.entries).1 = rf.log.length
  · have hnew : (rf.mergeEntries gob args p).log = d :: L := by
      have hsplit : rf.log.take (p + 1) ++ args.entries = d :: L := by
        rw [hrf, List.take_succ_cons, htake, hes, List.cons_append, List.take_append_drop]
      unfold Raft.mergeEntries
      dsimp only
      rw [if_pos hcond]
      split <;> exact hsplit
    by_cases hpre : L <+: log
    · refine ⟨L, hnew, Or.inl ⟨hpre, ?_⟩⟩
      rcases hcond with hc | hend
      · obtain ⟨j, hj, hne⟩ := hspec.conflict hc
        exact absurd hpre (not_isPrefix_of_conflict hrf hes hj hne)
      · have hle := hspec.le_entries
        exact hpre.eq_of_length_le (by omega)
    · exact ⟨L, hnew, Or.inr ⟨hpre, rfl⟩⟩
  · have hold : (rf.mergeEntries gob args p).log = d :: log := by
      unfold Raft.mergeEntries
      dsimp only
      rw [if_neg hcond]
      split <;> exact hrf
    push Not at hcond
    refine ⟨log, hold, Or.inl ⟨?_, rfl⟩⟩
    -- the loop has come to the end of the entries
    have hall : (Raft.mergeScan rf.log (p + 1) args.entries).1 = p + 1 + args.entries.length := by
      rcases hspec.done (Bool.not_eq_true _ ▸ hcond.1) with h | h
      · exact h
      · exact absurd h hcond.2
    have hlt := hspec.le_log
    exact isPrefix_of_scan hrf hlog hL htake hes hpL (by omega)
      fun j hj ↦ hspec.same j (by omega)

end Merge

end Lab6824
