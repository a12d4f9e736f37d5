import Lab6824.Raft.Sections

/-!
# Compaction — a server that compacts its log beside one that keeps it

`Snapshot` cuts the log off at an index and leaves a dummy entry with the term of that index.  Run
beside a reference server that ignores `Snapshot` and keeps its full log, a server answers every
`Start`, `RequestVote` and `AppendEntries` as the reference does, as long as no request starts
before the place where its log is cut off.
-/

namespace Lab6824

variable {n : Nat} {C σ : Type} {gob : Gob (RaftImage n C) σ}

/-! ## A log and what is left of it -/

/-- `log` is `full` from index `k` on, where only the term of the entry at `k` is kept. -/
structure Window (k : Nat) (full log : List (Log C)) : Prop where
  lt : k < full.length
  head : log.head?.map Log.term = (full[k]?).map Log.term
  tail : log.tail = full.drop (k + 1)

namespace Window

variable {k j : Nat} {full log : List (Log C)}

theorem refl (h : log ≠ []) : Window 0 log log where
  lt := List.length_pos_iff.mpr h
  head := by rw [List.head?_eq_getElem?]
  tail := List.drop_one.symm

/-- The dummy entry in front of the entries after `k`. -/
theorem exists_cons (h : Window k full log) :
    ∃ d e, full[k]? = some e ∧ d.term = e.term ∧ log = d :: full.drop (k + 1) := by
  have hhead := h.head
  have htail := h.tail
  rw [List.getElem?_eq_getElem h.lt] at hhead ⊢
  cases log with
  | nil => simp at hhead
  | cons d rest =>
      rw [List.head?_cons, Option.map_some, Option.map_some, Option.some.injEq] at hhead
      rw [List.tail_cons] at htail
      exact ⟨d, _, rfl, hhead, by rw [htail]⟩

theorem length_add (h : Window k full log) : log.length + k = full.length := by
  obtain ⟨d, _, _, _, rfl⟩ := h.exists_cons
  have hlt := h.lt
  rw [List.length_cons, List.length_drop]
  omega

theorem getElem?_succ (h : Window k full log) (j : Nat) : log[j + 1]? = full[k + (j + 1)]? := by
  obtain ⟨d, _, _, _, rfl⟩ := h.exists_cons
  rw [List.getElem?_cons_succ, List.getElem?_drop]
  congr 1
  omega

theorem map_term (h : Window k full log) (j : Nat) :
    (log[j]?).map Log.term = (full[k + j]?).map Log.term := by
  cases j with
  | zero =>
      rw [← List.head?_eq_getElem?]
      exact h.head
  | succ j => rw [h.getElem?_succ]

theorem append (h : Window k full log) (es : List (Log C)) :
    Window k (full ++ es) (log ++ es) := by
  obtain ⟨d, e, he, hterm, rfl⟩ := h.exists_cons
  have hlt := h.lt
  refine ⟨?_, ?_, ?_⟩
  · rw [List.length_append]
    omega
  · rw [List.getElem?_append_left hlt, he, List.cons_append, List.head?_cons, Option.map_some,
      Option.map_some, hterm]
  · rw [List.drop_append_of_le_length hlt]
    rfl

theorem take (h : Window k full log) (j : Nat) :
    Window k (full.take (k + (j + 1))) (log.take (j + 1)) := by
  obtain ⟨d, e, he, hterm, rfl⟩ := h.exists_cons
  have hlt := h.lt
  refine ⟨?_, ?_, ?_⟩
  · rw [List.length_take]
    omega
  · rw [List.getElem?_take_of_lt (by omega), he, List.take_succ_cons, List.head?_cons,
      Option.map_some, Option.map_some, hterm]
  · rw [List.take_succ_cons, List.tail_cons, List.drop_take]
    congr 1
    omega

/-- Cutting the log off at a later entry. -/
theorem cut (h : Window k full log) {e : Log C} {rest : List (Log C)}
    (hdrop : log.drop (j + 1) = e :: rest) :
    Window (k + (j + 1)) full ({ e with command := none } :: rest) := by
  have hget : full[k + (j + 1)]? = some e := by
    rw [← h.getElem?_succ, ← List.head?_drop, hdrop]
    rfl
  refine ⟨(List.getElem?_eq_some_iff.mp hget).1, ?_, ?_⟩
  · rw [hget]
    rfl
  · have hrest : rest = log.drop (j + 1 + 1) := by
      rw [← List.drop_drop, hdrop]
      rfl
    obtain ⟨d, _, _, _, rfl⟩ := h.exists_cons
    rw [List.tail_cons, hrest, List.drop_succ_cons, List.drop_drop]
    congr 1
    omega

end Window

/-! ## The loops of `AppendEntries` on both logs -/

theorem Raft.exists_conflictStart {log : List (Log C)} (term : Int) {j : Nat}
    (hj : j < log.length) : ∃ i, conflictStart log term j = some i := by
  induction j with
  | zero => exact ⟨0, rfl⟩
  | succ j ih =>
      rw [conflictStart, List.getElem?_eq_getElem hj]
      dsimp only
      split
      · exact ⟨j + 1, rfl⟩
      · exact ih (by omega)

namespace Window

variable {k j : Nat} {full log : List (Log C)}

/-- The search for the start of a term stops at the dummy entry, where the search in the full log may
go on. -/
theorem conflictStart (h : Window k full log) (term : Int) (hj : j < log.length) :
    ∃ i i', Raft.conflictStart log term j = some i ∧
      Raft.conflictStart full term (k + j) = some i' ∧ i + k = max i' k := by
  have hlen := h.length_add
  induction j with
  | zero =>
      obtain ⟨i', hi'⟩ := Raft.exists_conflictStart term h.lt
      have hle := Raft.conflictStart_le hi'
      exact ⟨0, i', rfl, hi', by omega⟩
  | succ j ih =>
      have hget := h.getElem?_succ j
      rw [List.getElem?_eq_getElem hj] at hget
      rw [← Nat.add_assoc, Raft.conflictStart, Raft.conflictStart, List.getElem?_eq_getElem hj,
        Nat.add_assoc, ← hget]
      dsimp only
      by_cases hterm : log[j + 1].term ≠ term
      · rw [if_pos hterm, if_pos hterm]
        exact ⟨j + 1, k + (j + 1), rfl, rfl, by omega⟩
      · rw [if_neg hterm, if_neg hterm]
        exact ih (by omega)

theorem mergeScan (h : Window k full log) (j : Nat) (es : List (Log C)) :
    Raft.mergeScan full (k + (j + 1)) es =
      (k + (Raft.mergeScan log (j + 1) es).1, (Raft.mergeScan log (j + 1) es).2) := by
  induction es generalizing j with
  | nil => rfl
  | cons e es ih =>
      rw [Raft.mergeScan, Raft.mergeScan, h.getElem?_succ]
      cases full[k + (j + 1)]? with
      | none => rfl
      | some l =>
          dsimp only
          by_cases hterm : l.term ≠ e.term
          · rw [if_pos hterm, if_pos hterm]
          · rw [if_neg hterm, if_neg hterm]
            exact ih (j + 1)

end Window

/-! ## The two servers -/

/-- What the calls below read agrees, apart from the part of the log that `rf` has cut off. -/
structure Compacts (rf full : Raft n C σ) : Prop where
  currentTerm : rf.currentTerm = full.currentTerm
  votedFor : rf.votedFor = full.votedFor
  state : rf.state = full.state
  commitIndex : rf.commitIndex = full.commitIndex
  flat : full.lastIncludedIndex = 0
  window : ∃ k : Nat, rf.lastIncludedIndex = k ∧ Window k full.log rf.log

namespace Compacts

variable {rf full : Raft n C σ}

theorem refl (hflat : rf.lastIncludedIndex = 0) (hlog : rf.log ≠ []) : Compacts rf rf :=
  ⟨rfl, rfl, rfl, rfl, hflat, 0, hflat, Window.refl hlog⟩

theorem getLastLogIndex (h : Compacts rf full) : rf.getLastLogIndex = full.getLastLogIndex := by
  obtain ⟨k, hk, hwin⟩ := h.window
  have hlen := hwin.length_add
  unfold Raft.getLastLogIndex Raft.logicIndex
  rw [hk, h.flat]
  omega

/-- A place of the log that is not cut off is at `j` in one log and at `k + j` in the other. -/
theorem exists_realIndex (h : Compacts rf full) {index : Int} (hge : rf.lastIncludedIndex ≤ index) :
    ∃ k j : Nat, rf.lastIncludedIndex = k ∧ Window k full.log rf.log ∧
      rf.realIndex index = j ∧ full.realIndex index = (k + j : Nat) := by
  obtain ⟨k, hk, hwin⟩ := h.window
  have hflat := h.flat
  refine ⟨k, (index - k).toNat, hk, hwin, ?_, ?_⟩
  · unfold Raft.realIndex
    omega
  · unfold Raft.realIndex
    omega

theorem entryAt (h : Compacts rf full) {index : Int} (hgt : rf.lastIncludedIndex < index) :
    rf.entryAt index = full.entryAt index := by
  obtain ⟨k, j, hk, hwin, hj, hkj⟩ := h.exists_realIndex hgt.le
  unfold Raft.entryAt
  rw [hj, hkj, logAt_natCast, logAt_natCast]
  -- the entry is not the dummy
  cases j with
  | zero =>
      unfold Raft.realIndex at hj
      omega
  | succ j => exact hwin.getElem?_succ j

theorem isFreshThan (h : Compacts rf full) (lastLogIndex lastLogTerm : Int) :
    rf.isFreshThan lastLogIndex lastLogTerm = full.isFreshThan lastLogIndex lastLogTerm := by
  obtain ⟨k, hk, hwin⟩ := h.window
  have hlen := hwin.length_add
  obtain ⟨d, e, he, _, hcons⟩ := hwin.exists_cons
  have hpos : 0 < rf.log.length := by rw [hcons, List.length_cons]; omega
  have hlast : (logAt rf.log (rf.log.length - 1)).map Log.term
      = (logAt full.log (full.log.length - 1)).map Log.term := by
    rw [show (rf.log.length : Int) - 1 = (rf.log.length - 1 : Nat) by omega,
      show (full.log.length : Int) - 1 = (k + (rf.log.length - 1) : Nat) by omega,
      logAt_natCast, logAt_natCast]
    exact hwin.map_term _
  unfold Raft.isFreshThan
  rw [h.getLastLogIndex]
  -- only the term of the last entry is compared
  cases hl : logAt rf.log (rf.log.length - 1) with
  | none =>
      rw [hl, Option.map_none, eq_comm, Option.map_eq_none_iff] at hlast
      rw [hlast]
  | some a =>
      rw [hl, Option.map_some, eq_comm, Option.map_eq_some_iff] at hlast
      obtain ⟨b, hb, hterm⟩ := hlast
      rw [hb]
      dsimp only
      rw [hterm]

/-! ### Step-downs -/

theorem toFollower (h : Compacts rf full) (term : Int) (votedFor : Option (Fin n)) :
    Compacts (rf.toFollower gob term votedFor) (full.toFollower gob term votedFor) :=
  ⟨rfl, rfl, rfl, h.commitIndex, h.flat, h.window⟩

theorem stepDown (h : Compacts rf full) (term : Int) :
    Compacts (rf.stepDown gob term) (full.stepDown gob term) := by
  unfold Raft.stepDown
  rw [← h.currentTerm]
  split
  · exact h.toFollower term none
  · exact h

theorem appendStepDown (h : Compacts rf full) (term : Int) :
    Compacts (rf.appendStepDown gob term) (full.appendStepDown gob term) := by
  unfold Raft.appendStepDown
  rw [← h.currentTerm, ← h.state]
  split
  · exact h.toFollower term none
  · exact h

/-! ### Handlers -/

theorem start (gob : Gob (RaftImage n C) σ) (h : Compacts rf full) (command : Option C) :
    Compacts (rf.start gob command).1 (full.start gob command).1 ∧
      (rf.start gob command).2 = (full.start gob command).2 := by
  obtain ⟨k, hk, hwin⟩ := h.window
  have hflat := h.flat
  have hnew := hwin.append [{ command := command, term := rf.currentTerm }]
  unfold Raft.start
  rw [← h.state, ← h.currentTerm]
  split
  · refine ⟨⟨rfl, h.votedFor, rfl, h.commitIndex, hflat, k, hk, hnew⟩, Prod.ext ?_ rfl⟩
    have hlen := hnew.length_add
    unfold Raft.logicIndex Raft.persist
    dsimp only
    omega
  · exact ⟨h, rfl⟩

theorem requestVote (gob : Gob (RaftImage n C) σ) (h : Compacts rf full)
    (args : RequestVoteArgs n) :
    ∃ rf' full' reply, rf.requestVote gob args = some (rf', reply) ∧
      full.requestVote gob args = some (full', reply) ∧ Compacts rf' full' := by
  have hdown : Compacts (rf.stepDown gob args.term) (full.stepDown gob args.term) :=
    h.stepDown args.term
  unfold Raft.requestVote
  generalize rf.stepDown gob args.term = rf₀ at hdown ⊢
  generalize full.stepDown gob args.term = full₀ at hdown ⊢
  dsimp only
  rw [← hdown.currentTerm, ← hdown.votedFor, ← hdown.isFreshThan]
  split
  · exact ⟨rf₀, full₀, _, rfl, rfl, hdown⟩
  · -- the log has an entry, so the freshness test has an answer
    obtain ⟨k, hk, hwin⟩ := hdown.window
    obtain ⟨d, _, _, _, hcons⟩ := hwin.exists_cons
    have hlen := congrArg List.length hcons
    rw [List.length_cons] at hlen
    obtain ⟨last, hlast⟩ : ∃ last, logAt rf₀.log (rf₀.log.length - 1) = some last := by
      rw [show (rf₀.log.length : Int) - 1 = (rf₀.log.length - 1 : Nat) by omega, logAt_natCast]
      exact ⟨_, List.getElem?_eq_getElem (by omega)⟩
    cases hfresh : rf₀.isFreshThan args.lastLogIndex args.lastLogTerm with
    | none =>
        unfold Raft.isFreshThan at hfresh
        rw [hlast] at hfresh
        dsimp only at hfresh
        split at hfresh <;> cases hfresh
    | some fresh =>
        cases fresh with
        | true => exact ⟨rf₀, full₀, _, rfl, rfl, hdown⟩
        | false =>
            exact ⟨_, _, _, rfl, rfl, rfl, rfl, hdown.state, hdown.commitIndex, hdown.flat, k, hk,
              hwin⟩

/-- The merge rewrites both logs or neither. -/
theorem mergeEntries (h : Compacts rf full) {k j : Nat} (hk : rf.lastIncludedIndex = k)
    (hwin : Window k full.log rf.log) (args : AppendEntriesArgs n C) :
    Compacts (rf.mergeEntries gob args j) (full.mergeEntries gob args (k + j)) := by
  have hscan := hwin.mergeScan j args.entries
  have hlen := hwin.length_add
  have hiff : (k + (Raft.mergeScan rf.log (j + 1) args.entries).1 = full.log.length) ↔
      (Raft.mergeScan rf.log (j + 1) args.entries).1 = rf.log.length := by omega
  refine ⟨?_, ?_, ?_, ?_, ?_, k, ?_, ?_⟩
  · simpa using h.currentTerm
  · simpa using h.votedFor
  · simpa using h.state
  · rw [Raft.mergeEntries_commitIndex, Raft.mergeEntries_commitIndex, h.commitIndex]
  · simpa using h.flat
  · simpa using hk
  · -- the loop ends at the same place, so the two tests agree
    rw [Raft.mergeEntries_log, Raft.mergeEntries_log, Nat.add_assoc, hscan]
    simp only [hiff]
    split
    · exact (hwin.take j).append args.entries
    · exact hwin

/-- `Snapshot` moves the cut; the reference does nothing. -/
theorem snapshot (gob : Gob (RaftImage n C) σ) (h : Compacts rf full) {index : Int}
    (hle : index ≤ rf.getLastLogIndex) (data : List σ) :
    ∃ rf' stored, rf.snapshot gob index data = some (rf', stored) ∧ Compacts rf' full := by
  unfold Raft.snapshot
  split
  · exact ⟨rf, false, rfl, h⟩
  · rename_i hnew
    obtain ⟨k, j, hk, hwin, hj, _⟩ := h.exists_realIndex (not_le.mp hnew).le
    have hlt : j < rf.log.length := by
      unfold Raft.getLastLogIndex Raft.logicIndex at hle
      unfold Raft.realIndex at hj
      omega
    have hfrom : Raft.logFrom rf.log (rf.realIndex index) = some (rf.log.drop j) := by
      unfold Raft.logFrom
      rw [hj, if_neg (by omega), Int.toNat_natCast]
    rw [hfrom, List.drop_eq_getElem_cons hlt]
    -- the index is past the old cut, so the entry there is a real one
    obtain ⟨i, rfl⟩ : ∃ i, j = i + 1 := by
      unfold Raft.realIndex at hj
      exact ⟨j - 1, by omega⟩
    have hcut := hwin.cut (List.drop_eq_getElem_cons hlt)
    refine ⟨_, true, rfl, h.currentTerm, h.votedFor, h.state, h.commitIndex, h.flat, _, ?_, hcut⟩
    unfold Raft.realIndex at hj
    dsimp only
    omega

end Compacts

/-- The request is not stale, and the log has an entry of another term at `PrevLogIndex`. -/
def Raft.Mismatch (rf : Raft n C σ) (args : AppendEntriesArgs n C) : Prop :=
  rf.currentTerm ≤ args.term ∧
    ∃ e, rf.entryAt args.prevLogIndex = some e ∧ e.term ≠ args.prevLogTerm

/-- The reply of `rf` beside that of the reference.  They are equal, except that `ConflictIndex`,
when it comes from the search for the start of the term `ConflictTerm`, is not before the first
index after the cut. -/
structure AppendRepliesAgree (rf : Raft n C σ) (args : AppendEntriesArgs n C)
    (reply ref : AppendEntriesReply) : Prop where
  same : ¬ rf.Mismatch args → reply = ref
  mismatch : rf.Mismatch args →
    ref.success = false ∧ (rf.entryAt args.prevLogIndex).map Log.term = some ref.conflictTerm ∧
      reply = { ref with conflictIndex := max ref.conflictIndex (rf.lastIncludedIndex + 1) }

namespace Compacts

variable {rf full : Raft n C σ}

theorem appendEntries (gob : Gob (RaftImage n C) σ) (h : Compacts rf full)
    {args : AppendEntriesArgs n C} (hprev : rf.lastIncludedIndex ≤ args.prevLogIndex) :
    ∃ rf' full' reply ref, rf.appendEntries gob args = some (rf', reply) ∧
      full.appendEntries gob args = some (full', ref) ∧ Compacts rf' full' ∧
      AppendRepliesAgree rf args reply ref := by
  have hdown : Compacts (rf.appendStepDown gob args.term) (full.appendStepDown gob args.term) :=
    h.appendStepDown args.term
  have hbase := Raft.appendStepDown_lastIncludedIndex gob rf args.term
  have hentry : (rf.appendStepDown gob args.term).entryAt args.prevLogIndex
      = rf.entryAt args.prevLogIndex := by
    unfold Raft.entryAt Raft.realIndex
    rw [hbase, Raft.appendStepDown_log]
  have hterm := Raft.appendStepDown_currentTerm_le gob rf args.term
  unfold Raft.appendEntries
  generalize rf.appendStepDown gob args.term = rf₀ at hdown hbase hentry hterm ⊢
  generalize full.appendStepDown gob args.term = full₀ at hdown ⊢
  rw [← hbase] at hprev
  dsimp only
  rw [← hdown.currentTerm, ← hdown.getLastLogIndex]
  split
  · -- a stale request
    rename_i hstale
    exact ⟨rf₀, full₀, _, _, rfl, rfl, hdown, fun _ ↦ rfl,
      fun hmis ↦ absurd (hterm.mpr hmis.1) (not_le.mpr hstale)⟩
  · rename_i hfresh
    obtain ⟨k, j, hk, hwin, hj, hkj⟩ := hdown.exists_realIndex hprev
    have hat : rf.entryAt args.prevLogIndex = rf₀.log[j]? := by
      rw [← hentry, Raft.entryAt, hj, logAt_natCast]
    rw [hj, hkj]
    by_cases hshort : args.prevLogIndex > rf₀.getLastLogIndex
    · -- the log is too short: it has no entry at the place
      rw [if_pos (Or.inl hshort), if_pos (Or.inl hshort)]
      refine ⟨rf₀, full₀, _, _, rfl, rfl, hdown, fun _ ↦ rfl, fun hmis ↦ ?_⟩
      obtain ⟨_, e, he, _⟩ := hmis
      rw [hat] at he
      have hlt := (List.getElem?_eq_some_iff.mp he).1
      unfold Raft.getLastLogIndex Raft.logicIndex at hshort
      unfold Raft.realIndex at hj
      omega
    · rw [if_neg (by omega), if_neg (by omega), logAt_natCast, logAt_natCast]
      have hlt : j < rf₀.log.length := by
        unfold Raft.getLastLogIndex Raft.logicIndex at hshort
        unfold Raft.realIndex at hj
        omega
      have hterms := hwin.map_term j
      have hlen := hwin.length_add
      rw [List.getElem?_eq_getElem hlt] at hterms hat ⊢
      rw [List.getElem?_eq_getElem (by omega), Option.map_some, Option.map_some,
        Option.some.injEq] at hterms
      rw [List.getElem?_eq_getElem (by omega)]
      dsimp only
      rw [← hterms, Int.toNat_natCast, Int.toNat_natCast]
      by_cases hmatch : rf₀.log[j].term ≠ args.prevLogTerm
      · obtain ⟨i, i', hi, hi', hmax⟩ := hwin.conflictStart rf₀.log[j].term hlt
        have hmis : rf.Mismatch args := ⟨hterm.mp (by omega), _, hat, hmatch⟩
        rw [if_pos hmatch, if_pos hmatch, hi, hi']
        refine ⟨rf₀, full₀, _, _, rfl, rfl, hdown, fun hno ↦ absurd hmis hno, fun _ ↦ ⟨rfl, ?_, ?_⟩⟩
        · rw [hat]
          rfl
        · -- the search in the full log may have gone on beyond the cut
          have hflat := hdown.flat
          have hindex : rf₀.logicIndex ((i : Int) + 1)
              = max (full₀.logicIndex ((i' : Int) + 1)) (rf.lastIncludedIndex + 1) := by
            unfold Raft.logicIndex
            omega
          rw [hindex]
      · rw [if_neg hmatch, if_neg hmatch]
        refine ⟨_, _, _, _, rfl, rfl, hdown.mergeEntries hk hwin args, fun _ ↦ rfl, fun hmis ↦ ?_⟩
        obtain ⟨_, e, he, hne⟩ := hmis
        rw [hat, Option.some.injEq] at he
        rw [he] at hmatch
        exact absurd hne hmatch

end Compacts

/-! ## Sequences of calls -/

inductive Call (n : Nat) (C σ : Type) where
  | start (command : Option C)
  | requestVote (args : RequestVoteArgs n)
  | appendEntries (args : AppendEntriesArgs n C)
  | snapshot (index : Int) (data : List σ)

inductive Response where
  /-- The index, the term and `isLeader`. -/
  | started (values : Int × Int × Bool)
  | vote (reply : RequestVoteReply)
  | append (reply : AppendEntriesReply)
  | done

namespace Raft

def call (gob : Gob (RaftImage n C) σ) (rf : Raft n C σ) :
    Call n C σ → Option (Raft n C σ × Response)
  | .start command =>
    let (rf, values) := rf.start gob command
    some (rf, .started values)
  | .requestVote args => (rf.requestVote gob args).map fun (rf, reply) ↦ (rf, .vote reply)
  | .appendEntries args => (rf.appendEntries gob args).map fun (rf, reply) ↦ (rf, .append reply)
  | .snapshot index data => (rf.snapshot gob index data).map fun (rf, _) ↦ (rf, .done)

/-- The reference server ignores `Snapshot`. -/
def callFull (gob : Gob (RaftImage n C) σ) (full : Raft n C σ) :
    Call n C σ → Option (Raft n C σ × Response)
  | .snapshot _ _ => some (full, .done)
  | .start command => full.call gob (.start command)
  | .requestVote args => full.call gob (.requestVote args)
  | .appendEntries args => full.call gob (.appendEntries args)

/-- Requests start after the cut, and snapshots are of entries that the log has. -/
def Allows (rf : Raft n C σ) : Call n C σ → Prop
  | .start _ => True
  | .requestVote _ => True
  | .appendEntries args => rf.lastIncludedIndex ≤ args.prevLogIndex
  | .snapshot index _ => index ≤ rf.getLastLogIndex

instance (rf : Raft n C σ) (c : Call n C σ) : Decidable (rf.Allows c) := by
  unfold Allows
  induction c using Call.casesOn <;> infer_instance

end Raft

/-- The responses to one call. -/
def ResponsesAgree (rf : Raft n C σ) : Call n C σ → Response → Response → Prop
  | .appendEntries args, .append reply, .append ref => AppendRepliesAgree rf args reply ref
  | _, response, ref => response = ref

/-- What can be seen of the two servers. -/
structure SameView (rf full : Raft n C σ) : Prop where
  currentTerm : rf.currentTerm = full.currentTerm
  votedFor : rf.votedFor = full.votedFor
  state : rf.state = full.state
  commitIndex : rf.commitIndex = full.commitIndex
  last : rf.getLastLogIndex = full.getLastLogIndex
  flat : full.lastIncludedIndex = 0
  boundary : ∃ d e, rf.entryAt rf.lastIncludedIndex = some d ∧
    full.entryAt rf.lastIncludedIndex = some e ∧ d.term = e.term
  entries : ∀ index, rf.lastIncludedIndex < index → rf.entryAt index = full.entryAt index

theorem Compacts.sameView {rf full : Raft n C σ} (h : Compacts rf full) : SameView rf full := by
  refine ⟨h.currentTerm, h.votedFor, h.state, h.commitIndex, h.getLastLogIndex, h.flat, ?_,
    fun _ hgt ↦ h.entryAt hgt⟩
  obtain ⟨k, hk, hwin⟩ := h.window
  obtain ⟨d, e, he, hterm, hcons⟩ := hwin.exists_cons
  refine ⟨d, e, ?_, ?_, hterm⟩
  · unfold Raft.entryAt Raft.realIndex
    rw [hcons, Int.sub_self]
    rfl
  · unfold Raft.entryAt Raft.realIndex
    rw [h.flat, hk, Int.sub_zero, logAt_natCast, he]

/-- One call on both servers. -/
theorem Compacts.call (gob : Gob (RaftImage n C) σ) {rf full : Raft n C σ}
    (h : Compacts rf full) {c : Call n C σ} (hok : rf.Allows c) :
    ∃ rf' full' response ref, rf.call gob c = some (rf', response) ∧
      full.callFull gob c = some (full', ref) ∧ Compacts rf' full' ∧
      ResponsesAgree rf c response ref := by
  cases c with
  | start command =>
      obtain ⟨hnew, hsame⟩ := h.start gob command
      exact ⟨_, _, _, _, rfl, rfl, hnew, congrArg Response.started hsame⟩
  | requestVote args =>
      obtain ⟨rf', full', reply, hrf, hfull, hnew⟩ := h.requestVote gob args
      exact ⟨rf', full', .vote reply, .vote reply, by rw [Raft.call, hrf]; rfl,
        by rw [Raft.callFull, Raft.call, hfull]; rfl, hnew, rfl⟩
  | appendEntries args =>
      obtain ⟨rf', full', reply, ref, hrf, hfull, hnew, hagree⟩ := h.appendEntries gob hok
      exact ⟨rf', full', .append reply, .append ref, by rw [Raft.call, hrf]; rfl,
        by rw [Raft.callFull, Raft.call, hfull]; rfl, hnew, hagree⟩
  | snapshot index data =>
      obtain ⟨rf', stored, hrf, hnew⟩ := h.snapshot gob hok data
      exact ⟨rf', full, .done, .done, by rw [Raft.call, hrf]; rfl, rfl, hnew, rfl⟩

/-- A server and its reference. -/
structure Pair (n : Nat) (C σ : Type) where
  server : Raft n C σ
  reference : Raft n C σ

/-- Both take the same call. -/
def Pair.step (gob : Gob (RaftImage n C) σ) (p : Pair n C σ) (c : Call n C σ) :
    Option (Pair n C σ) :=
  match p.server.call gob c, p.reference.callFull gob c with
  | some (rf, _), some (full, _) => some ⟨rf, full⟩
  | _, _ => none

theorem exists_run_compacts {p : Pair n C σ} (h : Compacts p.server p.reference)
    {calls : List (Call n C σ)}
    (hok : Lib.Along (Pair.step gob) (fun p c ↦ p.server.Allows c) p calls) :
    ∃ q, Lib.run (Pair.step gob) p calls = some q ∧ Compacts q.server q.reference := by
  induction calls generalizing p with
  | nil => exact ⟨p, rfl, h⟩
  | cons c calls ih =>
      obtain ⟨rf', full', _, _, hrf, hfull, hnew, _⟩ := h.call gob hok.1
      have hstep : p.step gob c = some ⟨rf', full'⟩ := by
        unfold Pair.step
        rw [hrf, hfull]
      obtain ⟨q, hrun, hq⟩ := ih hnew (hok.2 _ hstep)
      exact ⟨q, Lib.run_cons.mpr ⟨_, hstep, hrun⟩, hq⟩

/-- Compaction cannot be seen from outside: whatever calls a server and its reference have taken
from a common state with its full log, they look the same, and they answer the next call alike. -/
theorem compaction_invisible (gob : Gob (RaftImage n C) σ) (rf : Raft n C σ)
    (hflat : rf.lastIncludedIndex = 0) (hlog : rf.log ≠ []) {calls : List (Call n C σ)}
    (hok : Lib.Along (Pair.step gob) (fun p c ↦ p.server.Allows c) ⟨rf, rf⟩ calls) :
    ∃ p, Lib.run (Pair.step gob) ⟨rf, rf⟩ calls = some p ∧ SameView p.server p.reference ∧
      ∀ c, p.server.Allows c →
        ∃ rf' full' response ref, p.server.call gob c = some (rf', response) ∧
          p.reference.callFull gob c = some (full', ref) ∧ SameView rf' full' ∧
          ResponsesAgree p.server c response ref := by
  obtain ⟨p, hrun, hp⟩ := exists_run_compacts (Compacts.refl hflat hlog) hok
  refine ⟨p, hrun, hp.sameView, fun c hc ↦ ?_⟩
  obtain ⟨rf', full', response, ref, hrf, hfull, hnew, hagree⟩ := hp.call gob hc
  exact ⟨rf', full', response, ref, hrf, hfull, hnew.sameView, hagree⟩

/-- A follower gets five entries and compacts three of them; the next leader takes the first entry
after the cut for one of its own term, and the candidate after it has the shorter log. -/
def cutCalls : List (Call 3 Nat (RaftImage 3 Nat)) :=
  [ .appendEntries
      ⟨1, 1, 0, 0, [⟨some 1, 1⟩, ⟨some 2, 1⟩, ⟨some 3, 1⟩, ⟨some 4, 1⟩, ⟨some 5, 1⟩], 4⟩,
    .snapshot 3 [],
    .appendEntries ⟨2, 2, 4, 2, [⟨some 6, 2⟩], 4⟩,
    .requestVote ⟨3, 0, 4, 1⟩,
    .snapshot 4 [] ]

theorem compaction_invisible_cutCalls :
    ∃ p, Lib.run (Pair.step (.plain _)) ⟨.fresh 0 {}, .fresh 0 {}⟩ cutCalls = some p ∧
      SameView p.server p.reference := by
  have hok : Lib.Along (Pair.step (.plain _)) (fun p c ↦ p.server.Allows c)
      ⟨.fresh 0 {}, .fresh 0 {}⟩ cutCalls := by decide +kernel
  obtain ⟨p, hrun, hview, _⟩ := compaction_invisible _ (.fresh 0 {}) rfl (by decide) hok
  exact ⟨p, hrun, hview⟩

end Lab6824
