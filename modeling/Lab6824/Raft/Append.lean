import Lab6824.Raft.Compaction
import Lab6824.Raft.Indices

/-!
# Append — what one `AppendEntries` does to a log

The merge loop compares the entries of a request with those the log has from `PrevLogIndex` on.  It
stops at the first conflict, at the end of the entries or at the end of the log, and in the first and
the last case the entries replace everything after `PrevLogIndex`.  The log may be any log with a
dummy entry, and the request any request, not only one of a leader.
-/

namespace Lab6824

variable {n : Nat} {C σ : Type} {gob : Gob (RaftImage n C) σ}

/-! ## The merged log, region by region -/

section Merged

variable {log entries : List (Log C)} {pli : Nat}

theorem mergeLog_term (hlt : pli < log.length) {j : Nat} {e : Log C} (he : entries[j]? = some e) :
    ((mergeLog log pli entries)[pli + 1 + j]?).map Log.term = some e.term := by
  rcases mergeLog_cases hlt entries with ⟨hold, _, hsame⟩ | ⟨hnew, _⟩
  · rw [hold, hsame j (List.getElem?_eq_some_iff.mp he).1, he]
    rfl
  · have hlen := List.length_take_of_le (show pli + 1 ≤ log.length from hlt)
    rw [hnew, List.getElem?_append_right (by omega), hlen, Nat.add_sub_cancel_left, he]
    rfl

/-- Without a conflict nothing is lost: what lies after the entries stays, too. -/
theorem mergeLog_of_agreeing (hlt : pli < log.length)
    (hsame : ∀ j e l, entries[j]? = some e → log[pli + 1 + j]? = some l → l.term = e.term) :
    log.length ≤ (mergeLog log pli entries).length ∧
      ∀ k, pli + 1 + entries.length ≤ k → (mergeLog log pli entries)[k]? = log[k]? := by
  rcases mergeLog_cases hlt entries with ⟨hold, _⟩ | ⟨hnew, hwhy⟩
  · rw [hold]
    exact ⟨le_refl _, fun _ _ ↦ rfl⟩
  · have hend : log.length ≤ pli + 1 + entries.length := by
      rcases hwhy with hend | ⟨j, hj, hne⟩
      · exact hend
      · -- a place where the terms differ lies past the end of the log
        by_contra hlong
        have hl := List.getElem?_eq_getElem (show pli + 1 + j < log.length by omega)
        have he := List.getElem?_eq_getElem hj
        apply hne
        rw [hl, he, Option.map_some, Option.map_some, hsame j _ _ he hl]
    have hlen : (log.take (pli + 1) ++ entries).length = pli + 1 + entries.length := by
      rw [List.length_append, List.length_take_of_le hlt]
    rw [hnew, hlen]
    refine ⟨hend, fun k hk ↦ ?_⟩
    rw [List.getElem?_eq_none (by omega), List.getElem?_eq_none (by omega)]

/-- After a conflict the log ends with the entries. -/
theorem length_mergeLog_of_conflict (hlt : pli < log.length) {j : Nat} {e l : Log C}
    (he : entries[j]? = some e) (hl : log[pli + 1 + j]? = some l) (hne : l.term ≠ e.term) :
    (mergeLog log pli entries).length = pli + 1 + entries.length := by
  rcases mergeLog_cases hlt entries with ⟨_, _, hsame⟩ | ⟨hnew, _⟩
  · have hterm := hsame j (List.getElem?_eq_some_iff.mp he).1
    rw [hl, he, Option.map_some, Option.map_some, Option.some.injEq] at hterm
    exact absurd hterm hne
  · rw [hnew, List.length_append, List.length_take_of_le hlt]

/-- A second merge of the same entries finds them all. -/
theorem mergeLog_mergeLog (hlt : pli < log.length) :
    mergeLog (mergeLog log pli entries) pli entries = mergeLog log pli entries := by
  by_cases hcond : (Raft.mergeScan log (pli + 1) entries).2 = true ∨
      (Raft.mergeScan log (pli + 1) entries).1 = log.length
  · have hnew : mergeLog log pli entries = log.take (pli + 1) ++ entries := if_pos hcond
    have htake : (log.take (pli + 1) ++ entries).take (pli + 1) = log.take (pli + 1) :=
      List.take_left' (List.length_take_of_le hlt)
    rw [hnew, mergeLog, htake]
    exact ite_self _
  · have hold : mergeLog log pli entries = log := if_neg hcond
    rw [hold, hold]

end Merged

/-! ## The request -/

namespace Raft

variable {rf rf' : Raft n C σ} {args : AppendEntriesArgs n C} {pli : Nat}

/-- A log with a dummy entry is never indexed out of range. -/
theorem exists_appendEntries (gob : Gob (RaftImage n C) σ) (hne : rf.log ≠ [])
    (args : AppendEntriesArgs n C) : ∃ r, rf.appendEntries gob args = some r := by
  have hlen := List.length_pos_iff.mpr hne
  unfold appendEntries
  dsimp only
  rw [← appendStepDown_log gob rf args.term] at hlen
  generalize rf.appendStepDown gob args.term = rf₀ at hlen
  split
  · exact ⟨_, rfl⟩
  · split
    · exact ⟨_, rfl⟩
    · rename_i hrange
      push Not at hrange
      have hlt : (rf₀.realIndex args.prevLogIndex).toNat < rf₀.log.length := by
        rw [getLastLogIndex_eq] at hrange
        unfold realIndex at hrange ⊢
        omega
      have hprev : logAt rf₀.log (rf₀.realIndex args.prevLogIndex) =
          some rf₀.log[(rf₀.realIndex args.prevLogIndex).toNat] := by
        unfold logAt
        rw [if_neg (not_lt.mpr hrange.2), List.getElem?_eq_getElem hlt]
      rw [hprev]
      dsimp only
      split
      · obtain ⟨i, hi⟩ := exists_conflictStart
          rf₀.log[(rf₀.realIndex args.prevLogIndex).toNat].term hlt
        rw [hi]
        exact ⟨_, rfl⟩
      · exact ⟨_, rfl⟩

theorem entryAt_add (h : rf.realIndex args.prevLogIndex = pli) (d : Nat) :
    rf.entryAt (args.prevLogIndex + d) = rf.log[pli + d]? := by
  unfold realIndex at h
  rw [entryAt, realIndex, ← logAt_natCast]
  congr 1
  omega

/-- An entry of the log that the request has with another term. -/
def Conflicts (rf : Raft n C σ) (args : AppendEntriesArgs n C) : Prop :=
  ∃ (j : Nat) (e l : Log C), args.entries[j]? = some e ∧
    rf.entryAt (args.prevLogIndex + (1 + j : Nat)) = some l ∧ l.term ≠ e.term

/-- What an accepted request makes of the log. -/
structure Merged (rf rf' : Raft n C σ) (args : AppendEntriesArgs n C) : Prop where
  base : rf'.lastIncludedIndex = rf.lastIncludedIndex
  terms : ∀ (j : Nat) (e : Log C), args.entries[j]? = some e →
    (rf'.entryAt (args.prevLogIndex + (1 + j : Nat))).map Log.term = some e.term
  before : ∀ k ≤ args.prevLogIndex, rf'.entryAt k = rf.entryAt k
  agreeing : ¬ rf.Conflicts args → rf.getLastLogIndex ≤ rf'.getLastLogIndex ∧
    ∀ k, args.prevLogIndex + args.entries.length < k → rf'.entryAt k = rf.entryAt k
  conflicting : rf.Conflicts args →
    rf'.getLastLogIndex = args.prevLogIndex + args.entries.length

theorem Merged.of_accepts (hacc : rf.Accepts args pli)
    (hlog : rf'.log = mergeLog rf.log pli args.entries)
    (hbase : rf'.lastIncludedIndex = rf.lastIncludedIndex) : rf.Merged rf' args := by
  have hlt := hacc.lt
  have hindex := hacc.index
  have hindex' : rf'.realIndex args.prevLogIndex = pli := by
    unfold realIndex at hindex ⊢
    rw [hbase]
    exact hindex
  have hpli : args.prevLogIndex = pli + rf.lastIncludedIndex := by
    unfold realIndex at hindex
    omega
  refine ⟨hbase, fun j e he ↦ ?_, fun k hk ↦ ?_, fun hno ↦ ?_, fun hyes ↦ ?_⟩
  · rw [entryAt_add hindex', hlog, ← Nat.add_assoc]
    exact mergeLog_term hlt he
  · unfold entryAt realIndex logAt
    rw [hbase, hlog]
    split
    · rfl
    · exact mergeLog_getElem?_le hlt (by omega)
  · obtain ⟨hlen, hafter⟩ := mergeLog_of_agreeing hlt fun j e l he hl ↦ by
      by_contra hne
      exact hno ⟨j, e, l, he, by rw [entryAt_add hindex, ← Nat.add_assoc, hl], hne⟩
    rw [getLastLogIndex_eq, getLastLogIndex_eq, hlog, hbase]
    refine ⟨by omega, fun k hk ↦ ?_⟩
    obtain ⟨d, rfl⟩ : ∃ d : Nat, k = args.prevLogIndex + (1 + args.entries.length + d : Nat) :=
      ⟨(k - args.prevLogIndex - 1 - args.entries.length).toNat, by omega⟩
    rw [entryAt_add hindex', entryAt_add hindex, hlog]
    exact hafter _ (by omega)
  · obtain ⟨j, e, l, he, hl, hne⟩ := hyes
    rw [entryAt_add hindex, ← Nat.add_assoc] at hl
    rw [getLastLogIndex_eq, hlog, hbase, length_mergeLog_of_conflict hlt he hl hne]
    omega

/-- What one request does to the log, the boundary and `commitIndex`. -/
theorem appendEntries_effect {reply : AppendEntriesReply}
    (h : rf.appendEntries gob args = some (rf', reply)) :
    (reply.success = false ∧ rf'.log = rf.log ∧ rf'.commitIndex = rf.commitIndex) ∨
      (reply.success = true ∧ ∃ pli, rf.Accepts args pli ∧
        rf'.log = mergeLog rf.log pli args.entries ∧
        rf'.lastIncludedIndex = rf.lastIncludedIndex ∧
        rf'.commitIndex =
          if args.leaderCommit > rf.commitIndex then
            min args.leaderCommit (args.prevLogIndex + args.entries.length)
          else rf.commitIndex) := by
  rcases appendEntries_indices h with ⟨hno, _, hsame⟩ | ⟨hyes, pli, hacc, _, hmerged⟩
  · obtain ⟨hlog, _, _, hci, _⟩ := indices_eq.mp hsame
    exact Or.inl ⟨hno, hlog, hci⟩
  · obtain ⟨hlog, hbase, _, hci, _⟩ := indices_eq.mp hmerged
    exact Or.inr ⟨hyes, pli, hacc, hlog, hbase, hci⟩

/-- A request that has just been accepted changes nothing when it comes again. -/
theorem appendEntries_again {rf'' : Raft n C σ} {reply reply' : AppendEntriesReply}
    (h : rf.appendEntries gob args = some (rf', reply)) (hyes : reply.success = true)
    (h' : rf'.appendEntries gob args = some (rf'', reply')) :
    rf''.log = rf'.log ∧ rf''.commitIndex = rf'.commitIndex := by
  rcases appendEntries_effect h with ⟨hno, _⟩ | ⟨_, pli, hacc, hlog, hbase, hci⟩
  · rw [hno] at hyes
    cases hyes
  · rcases appendEntries_effect h' with ⟨_, hsame⟩ | ⟨_, pli', hacc', hlog', _, hci'⟩
    · exact hsame
    · -- the boundary has not moved, so the merge starts at the same place
      have heq : pli' = pli := by
        have hindex := hacc.index
        have hindex' := hacc'.index
        unfold realIndex at hindex hindex'
        omega
      rw [hlog', hlog, heq, hci', hci]
      refine ⟨mergeLog_mergeLog hacc.lt, ?_⟩
      by_cases hlc : args.leaderCommit > rf.commitIndex
      · rw [if_pos hlc]
        exact ite_self _
      · rw [if_neg hlc, if_neg hlc]

end Raft

/-- Every `AppendEntries` is answered.  A request that is accepted is merged into the log, and
changes neither the log nor `commitIndex` when it is processed once more; `commitIndex` moves at most
to what the leader has committed and the log has; a request that is not accepted changes neither. -/
theorem append_entries_merges (gob : Gob (RaftImage n C) σ) {rf : Raft n C σ} (hne : rf.log ≠ [])
    (args : AppendEntriesArgs n C) :
    ∃ rf' reply, rf.appendEntries gob args = some (rf', reply) ∧
      (reply.success = true → rf.Merged rf' args ∧
        ∃ rf'' reply', rf'.appendEntries gob args = some (rf'', reply') ∧
          rf''.log = rf'.log ∧ rf''.commitIndex = rf'.commitIndex) ∧
      (rf'.commitIndex ≠ rf.commitIndex →
        rf'.commitIndex ≤ args.leaderCommit ∧ rf'.commitIndex ≤ rf'.getLastLogIndex) ∧
      (reply.success = false → rf'.log = rf.log ∧ rf'.commitIndex = rf.commitIndex) := by
  obtain ⟨⟨rf', reply⟩, h⟩ := Raft.exists_appendEntries gob hne args
  refine ⟨rf', reply, h, ?_⟩
  rcases Raft.appendEntries_effect h with ⟨hno, hlog, hci⟩ | ⟨hyes, pli, hacc, hlog, hbase, hci⟩
  · refine ⟨fun hyes ↦ ?_, fun hmoved ↦ absurd hci hmoved, fun _ ↦ ⟨hlog, hci⟩⟩
    rw [hno] at hyes
    cases hyes
  · have hlen : pli + 1 + args.entries.length ≤ rf'.log.length := by
      rw [hlog]
      exact length_mergeLog_ge hacc.lt args.entries
    refine ⟨fun _ ↦ ⟨.of_accepts hacc hlog hbase, ?_⟩, fun hmoved ↦ ?_, fun hno ↦ ?_⟩
    · have hne' : rf'.log ≠ [] := List.length_pos_iff.mp (by omega)
      obtain ⟨⟨rf'', reply'⟩, h'⟩ := Raft.exists_appendEntries gob hne' args
      exact ⟨rf'', reply', h', Raft.appendEntries_again h hyes h'⟩
    · by_cases hlc : args.leaderCommit > rf.commitIndex
      · have hindex := hacc.index
        unfold Raft.realIndex at hindex
        rw [hci, if_pos hlc, Raft.getLastLogIndex_eq, hbase]
        exact ⟨min_le_left _ _, (min_le_right _ _).trans (by omega)⟩
      · rw [if_neg hlc] at hci
        exact absurd hci hmoved
    · rw [hyes] at hno
      cases hno

/-- A conflict at index 2 of a log of three entries. -/
theorem append_entries_merges_conflict :
    let boot : Raft 1 Nat (RaftImage 1 Nat) := Raft.fresh 0 {}
    let rf := { boot with log := [{}, ⟨some 5, 1⟩, ⟨some 6, 1⟩, ⟨some 7, 1⟩] }
    let args : AppendEntriesArgs 1 Nat := ⟨2, 0, 1, 1, [⟨some 8, 2⟩], 2⟩
    ∃ rf' reply, rf.appendEntries (Gob.plain (RaftImage 1 Nat)) args = some (rf', reply) ∧
      reply.success = true ∧ rf.Merged rf' args ∧ rf'.getLastLogIndex = 2 := by
  intro boot rf args
  obtain ⟨rf', reply, h, hyes, _⟩ :=
    append_entries_merges (Gob.plain (RaftImage 1 Nat)) (show rf.log ≠ [] by decide) args
  have hcheck : (rf.appendEntries (Gob.plain (RaftImage 1 Nat)) args).all
      (fun r ↦ decide (r.2.success = true)) = true := by
    decide
  rw [h, Option.all_some] at hcheck
  have hsuccess := of_decide_eq_true hcheck
  have hmerged := (hyes hsuccess).1
  exact ⟨rf', reply, h, hsuccess, hmerged,
    hmerged.conflicting ⟨0, ⟨some 8, 2⟩, ⟨some 6, 1⟩, rfl, rfl, by decide⟩⟩

end Lab6824
