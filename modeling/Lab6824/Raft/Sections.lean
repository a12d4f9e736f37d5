import Lab6824.Raft.Cluster
import Lab6824.Lib.Lists
import Lab6824.Lib.System

/-!
# Sections — what one step does to one server

Every step of the cluster runs at most one lock-held section, and it runs it on one server.
`LockSection` lists these sections once; `step_lockSection` is the inversion lemma that the
invariants about a single `Raft` object are proved from, and `local_invariant` lifts them to runs.
The lemmas before it say what each handler can return.
-/

namespace Lab6824

variable {n : Nat} {C σ : Type} {gob : Gob (RaftImage n C) σ}

namespace Raft

/-! ## Spec lemmas of the handlers -/

theorem stepDown_cases (gob : Gob (RaftImage n C) σ) (rf : Raft n C σ) (term : Int) :
    (rf.currentTerm < term ∧ rf.stepDown gob term = rf.toFollower gob term none) ∨
      (term ≤ rf.currentTerm ∧ rf.stepDown gob term = rf) := by
  unfold stepDown
  split
  · rename_i h
    exact Or.inl ⟨h, rfl⟩
  · rename_i h
    exact Or.inr ⟨by omega, rfl⟩

theorem appendStepDown_cases (gob : Gob (RaftImage n C) σ) (rf : Raft n C σ) (term : Int) :
    ((rf.currentTerm < term ∨ rf.state = .candidate ∧ rf.currentTerm = term) ∧
        rf.appendStepDown gob term = rf.toFollower gob term none) ∨
      (term ≤ rf.currentTerm ∧ ¬ (rf.state = .candidate ∧ rf.currentTerm = term) ∧
        rf.appendStepDown gob term = rf) := by
  unfold appendStepDown
  split
  · rename_i h
    exact Or.inl ⟨h, rfl⟩
  · rename_i h
    push Not at h
    exact Or.inr ⟨h.1, fun hc ↦ h.2 hc.1 hc.2, rfl⟩

section StepDown

/-! A step-down touches neither the log nor the indices. -/

variable (gob : Gob (RaftImage n C) σ) (rf : Raft n C σ) (term : Int)

@[simp] theorem stepDown_log : (rf.stepDown gob term).log = rf.log := by
  unfold stepDown
  split <;> rfl

@[simp] theorem stepDown_lastIncludedIndex :
    (rf.stepDown gob term).lastIncludedIndex = rf.lastIncludedIndex := by
  unfold stepDown
  split <;> rfl

@[simp] theorem stepDown_commitIndex : (rf.stepDown gob term).commitIndex = rf.commitIndex := by
  unfold stepDown
  split <;> rfl

theorem le_stepDown_currentTerm : term ≤ (rf.stepDown gob term).currentTerm := by
  rcases stepDown_cases gob rf term with ⟨_, he⟩ | ⟨hle, he⟩
  · rw [he]
    exact le_refl _
  · rw [he]
    exact hle

@[simp] theorem appendStepDown_log : (rf.appendStepDown gob term).log = rf.log := by
  unfold appendStepDown
  split <;> rfl

@[simp] theorem appendStepDown_lastIncludedIndex :
    (rf.appendStepDown gob term).lastIncludedIndex = rf.lastIncludedIndex := by
  unfold appendStepDown
  split <;> rfl

@[simp] theorem appendStepDown_commitIndex :
    (rf.appendStepDown gob term).commitIndex = rf.commitIndex := by
  unfold appendStepDown
  split <;> rfl

theorem le_appendStepDown_currentTerm : term ≤ (rf.appendStepDown gob term).currentTerm := by
  rcases appendStepDown_cases gob rf term with ⟨_, he⟩ | ⟨hle, _, he⟩
  · rw [he]
    exact le_refl _
  · rw [he]
    exact hle

theorem appendStepDown_currentTerm_le :
    (rf.appendStepDown gob term).currentTerm ≤ term ↔ rf.currentTerm ≤ term := by
  rcases appendStepDown_cases gob rf term with ⟨hc, he⟩ | ⟨_, _, he⟩
  · rw [he]
    refine iff_of_true (le_refl _) ?_
    rcases hc with hlt | ⟨_, heq⟩ <;> omega
  · rw [he]

end StepDown

/-- A vote is refused with the state as the step-down left it, or granted in the term of the request
to a candidate that the server was free to vote for. -/
theorem requestVote_cases {rf rf' : Raft n C σ} {args : RequestVoteArgs n}
    {reply : RequestVoteReply} (h : rf.requestVote gob args = some (rf', reply)) :
    (reply = { term := (rf.stepDown gob args.term).currentTerm } ∧
        rf' = rf.stepDown gob args.term) ∨
      (reply = { term := args.term, voteGranted := true } ∧
        (rf.stepDown gob args.term).currentTerm = args.term ∧
        ((rf.stepDown gob args.term).votedFor = none ∨
          (rf.stepDown gob args.term).votedFor = some args.candidateId) ∧
        (rf.stepDown gob args.term).isFreshThan args.lastLogIndex args.lastLogTerm = some false ∧
        rf' = persist gob
          { rf.stepDown gob args.term with votedFor := some args.candidateId }) := by
  have hge := le_stepDown_currentTerm gob rf args.term
  unfold requestVote at h
  dsimp only at h
  split at h
  · simp only [Option.some.injEq, Prod.mk.injEq] at h
    exact Or.inl ⟨h.2.symm, h.1.symm⟩
  · rename_i hfree
    push Not at hfree
    split at h
    · cases h
    · simp only [Option.some.injEq, Prod.mk.injEq] at h
      exact Or.inl ⟨h.2.symm, h.1.symm⟩
    · rename_i hfresh
      simp only [Option.some.injEq, Prod.mk.injEq] at h
      have hterm : (rf.stepDown gob args.term).currentTerm = args.term := by omega
      refine Or.inr ⟨?_, hterm, ?_, hfresh, h.1.symm⟩
      · rw [← h.2, hterm]
      · by_cases hnone : (rf.stepDown gob args.term).votedFor = none
        · exact Or.inl hnone
        · exact Or.inr (hfree.2 hterm hnone)

/-- `AppendEntries` changes nothing beyond its step-down, or merges the entries into the log. -/
theorem appendEntries_cases {rf rf' : Raft n C σ} {args : AppendEntriesArgs n C}
    {reply : AppendEntriesReply} (h : rf.appendEntries gob args = some (rf', reply)) :
    reply.term = (rf.appendStepDown gob args.term).currentTerm ∧
      ((reply.success = false ∧ rf' = rf.appendStepDown gob args.term) ∨
        (reply.success = true ∧ (rf.appendStepDown gob args.term).currentTerm ≤ args.term ∧
          ∃ (pli : Nat) (prev : Log C),
            (rf.appendStepDown gob args.term).realIndex args.prevLogIndex = pli ∧
            (rf.appendStepDown gob args.term).log[pli]? = some prev ∧
            prev.term = args.prevLogTerm ∧
            rf' = (rf.appendStepDown gob args.term).mergeEntries gob args pli)) := by
  unfold appendEntries at h
  dsimp only at h
  generalize rf.appendStepDown gob args.term = rf₀ at h ⊢
  split at h
  · simp only [Option.some.injEq, Prod.mk.injEq] at h
    obtain ⟨h1, rfl⟩ := h
    exact ⟨rfl, Or.inl ⟨rfl, h1.symm⟩⟩
  · rename_i hterm
    split at h
    · simp only [Option.some.injEq, Prod.mk.injEq] at h
      obtain ⟨h1, rfl⟩ := h
      exact ⟨rfl, Or.inl ⟨rfl, h1.symm⟩⟩
    · rename_i hrange
      push Not at hrange
      split at h
      · cases h
      · rename_i prev hprev
        split at h
        · split at h
          · cases h
          · simp only [Option.some.injEq, Prod.mk.injEq] at h
            obtain ⟨h1, rfl⟩ := h
            exact ⟨rfl, Or.inl ⟨rfl, h1.symm⟩⟩
        · rename_i hmatch
          simp only [Option.some.injEq, Prod.mk.injEq] at h
          obtain ⟨h1, rfl⟩ := h
          have hpli := Int.toNat_of_nonneg hrange.2
          refine ⟨rfl, Or.inr ⟨rfl, by omega, _, prev, hpli.symm, (logAt_eq_some hprev).2.2,
            not_not.mp hmatch, h1.symm⟩⟩

theorem conflictStart_le {log : List (Log C)} {term : Int} {j i : Nat}
    (h : conflictStart log term j = some i) : i ≤ j := by
  induction j with
  | zero =>
      rw [conflictStart, Option.some.injEq] at h
      exact h.symm.le
  | succ j ih =>
      rw [conflictStart] at h
      split at h
      · cases h
      · split at h
        · exact (Option.some.inj h).symm.le
        · exact (ih h).trans (Nat.le_succ j)

/-- The merge either rewrites and saves the log or leaves it alone; besides, it may set
`commitIndex`. -/
theorem mergeEntries_cases (gob : Gob (RaftImage n C) σ) (rf : Raft n C σ)
    (args : AppendEntriesArgs n C) (pli : Nat) :
    ∃ (rf₁ : Raft n C σ) (ci : Int) (ch : Bool),
      rf.mergeEntries gob args pli = { rf₁ with commitIndex := ci, commitChan := ch } ∧
        (rf₁ = rf ∨
          rf₁ = persist gob { rf with log := rf.log.take (pli + 1) ++ args.entries }) := by
  unfold mergeEntries
  dsimp only
  split
  · split
    · exact ⟨_, _, _, rfl, Or.inr rfl⟩
    · exact ⟨_, _, _, rfl, Or.inr rfl⟩
  · split
    · exact ⟨_, _, _, rfl, Or.inl rfl⟩
    · exact ⟨_, _, _, rfl, Or.inl rfl⟩

section Merge

/-! The merge touches the log and `commitIndex` only. -/

variable (gob : Gob (RaftImage n C) σ) (rf : Raft n C σ) (args : AppendEntriesArgs n C) (pli : Nat)

theorem mergeEntries_log :
    (rf.mergeEntries gob args pli).log =
      if (mergeScan rf.log (pli + 1) args.entries).2 = true ∨
          (mergeScan rf.log (pli + 1) args.entries).1 = rf.log.length then
        rf.log.take (pli + 1) ++ args.entries
      else rf.log := by
  unfold mergeEntries
  dsimp only
  split <;> split <;> rfl

@[simp] theorem mergeEntries_currentTerm :
    (rf.mergeEntries gob args pli).currentTerm = rf.currentTerm := by
  unfold mergeEntries
  dsimp only
  split <;> split <;> rfl

@[simp] theorem mergeEntries_votedFor :
    (rf.mergeEntries gob args pli).votedFor = rf.votedFor := by
  unfold mergeEntries
  dsimp only
  split <;> split <;> rfl

@[simp] theorem mergeEntries_state : (rf.mergeEntries gob args pli).state = rf.state := by
  unfold mergeEntries
  dsimp only
  split <;> split <;> rfl

@[simp] theorem mergeEntries_nextIndex :
    (rf.mergeEntries gob args pli).nextIndex = rf.nextIndex := by
  unfold mergeEntries
  dsimp only
  split <;> split <;> rfl

@[simp] theorem mergeEntries_matchIndex :
    (rf.mergeEntries gob args pli).matchIndex = rf.matchIndex := by
  unfold mergeEntries
  dsimp only
  split <;> split <;> rfl

@[simp] theorem mergeEntries_lastIncludedIndex :
    (rf.mergeEntries gob args pli).lastIncludedIndex = rf.lastIncludedIndex := by
  unfold mergeEntries
  dsimp only
  split <;> split <;> rfl

@[simp] theorem mergeEntries_lastIncludedTerm :
    (rf.mergeEntries gob args pli).lastIncludedTerm = rf.lastIncludedTerm := by
  unfold mergeEntries
  dsimp only
  split <;> split <;> rfl

@[simp] theorem mergeEntries_lastApplied :
    (rf.mergeEntries gob args pli).lastApplied = rf.lastApplied := by
  unfold mergeEntries
  dsimp only
  split <;> split <;> rfl

end Merge

/-- Beyond its step-down `handleAppendEntriesReply` writes only the leader's volatile
bookkeeping. -/
theorem handleAppendEntriesReply_cases {rf rf' : Raft n C σ} {args : AppendEntriesArgs n C}
    {reply : AppendEntriesReply} {server : Fin n}
    (h : rf.handleAppendEntriesReply gob args reply server = some rf') :
    ∃ (ni mi : Fin n → Int) (ci : Int) (ch : Bool),
      rf' = { rf.stepDown gob reply.term with
        nextIndex := ni, matchIndex := mi, commitIndex := ci, commitChan := ch } := by
  unfold handleAppendEntriesReply at h
  dsimp only at h
  generalize rf.stepDown gob reply.term = rf₀ at h ⊢
  split at h
  · exact ⟨_, _, _, _, (Option.some.inj h).symm⟩
  · split at h
    · rw [← Option.some.inj h]
      unfold recordMatch advanceCommit
      dsimp only
      split
      · split
        · exact ⟨_, _, _, _, rfl⟩
        · exact ⟨_, _, _, _, rfl⟩
      · exact ⟨_, _, _, _, rfl⟩
    · split at h
      · cases h
      · exact ⟨_, _, _, _, (Option.some.inj h).symm⟩

/-- What the leader learns from a reply: nothing, or that `server` has all entries that were sent,
in which case `commitIndex` may move to the last of them. -/
theorem handleAppendEntriesReply_match {rf rf₀ rf' : Raft n C σ} {args : AppendEntriesArgs n C}
    {reply : AppendEntriesReply} {server : Fin n} (hdown : rf.stepDown gob reply.term = rf₀)
    (h : rf.handleAppendEntriesReply gob args reply server = some rf') :
    (rf'.matchIndex = rf₀.matchIndex ∧ rf'.commitIndex = rf₀.commitIndex) ∨
      (rf₀.state = .leader ∧ reply.sendTerm = rf₀.currentTerm ∧ reply.success = true ∧
        rf₀.matchIndex server < args.prevLogIndex + args.entries.length ∧
        rf'.matchIndex =
          Function.update rf₀.matchIndex server (args.prevLogIndex + args.entries.length) ∧
        (rf'.commitIndex = rf₀.commitIndex ∨
          rf'.commitIndex = args.prevLogIndex + args.entries.length ∧
          rf₀.commitIndex < args.prevLogIndex + args.entries.length ∧
          rf₀.currentTerm = reply.term ∧
          rf'.matchCount (args.prevLogIndex + args.entries.length) ≥ n / 2 + 1)) := by
  unfold handleAppendEntriesReply at h
  dsimp only at h
  rw [hdown] at h
  split at h
  · rw [← Option.some.inj h]
    exact Or.inl ⟨rfl, rfl⟩
  · rename_i hlead
    push Not at hlead
    split at h
    · rename_i hyes
      rw [← Option.some.inj h]
      unfold recordMatch
      dsimp only
      split
      · rename_i hlt
        refine Or.inr ⟨hlead.1, hlead.2, hyes, hlt, ?_⟩
        unfold advanceCommit
        dsimp only
        split
        · rename_i hcommit
          exact ⟨rfl, Or.inr ⟨rfl, hcommit⟩⟩
        · exact ⟨rfl, Or.inl rfl⟩
      · exact Or.inl ⟨rfl, rfl⟩
    · split at h
      · cases h
      · rw [← Option.some.inj h]
        exact Or.inl ⟨rfl, rfl⟩

theorem mergeEntries_commitIndex (gob : Gob (RaftImage n C) σ) (rf : Raft n C σ)
    (args : AppendEntriesArgs n C) (pli : Nat) :
    (rf.mergeEntries gob args pli).commitIndex =
      if args.leaderCommit > rf.commitIndex then
        min args.leaderCommit (args.prevLogIndex + args.entries.length)
      else rf.commitIndex := by
  have hset : ∀ r : Raft n C σ, r.commitIndex = rf.commitIndex →
      (if args.leaderCommit > r.commitIndex then
          { r with
            commitIndex := min args.leaderCommit (args.prevLogIndex + args.entries.length)
            commitChan := true }
        else r).commitIndex =
        if args.leaderCommit > rf.commitIndex then
          min args.leaderCommit (args.prevLogIndex + args.entries.length)
        else rf.commitIndex := by
    intro r hr
    rw [hr]
    split
    · rfl
    · exact hr
  -- saving the log does not touch `commitIndex`
  apply hset
  split <;> rfl

/-- `onRound` sends a snapshot only as leader, with what its persister holds. -/
theorem onRound_snapshot {rf : Raft n C σ} {server : Fin n} {args : InstallSnapshotArgs n σ}
    (h : rf.onRound server = some (.snapshot args)) :
    rf.state = .leader ∧ rf.nextIndex server - 1 < rf.lastIncludedIndex ∧
      args =
        { term := rf.currentTerm
          leaderId := rf.me
          lastIncludedIndex := rf.lastIncludedIndex
          lastIncludedTerm := rf.lastIncludedTerm
          data := rf.persister.snapshot } := by
  unfold onRound at h
  split at h
  · rename_i hlead
    dsimp only at h
    split at h
    · rename_i hlt
      simp only [Option.some.injEq, Round.snapshot.injEq] at h
      exact ⟨hlead, hlt, h.symm⟩
    · split at h <;> simp at h
  · simp at h

/-- `onRound` sends all entries after the previous one, which is an entry of its log. -/
theorem onRound_append {rf : Raft n C σ} {server : Fin n} {args : AppendEntriesArgs n C}
    (h : rf.onRound server = some (.append args)) :
    rf.state = .leader ∧ rf.lastIncludedIndex ≤ rf.nextIndex server - 1 ∧
      ∃ (index : Nat) (prev : Log C),
        rf.realIndex (rf.nextIndex server - 1) = index ∧ rf.log[index]? = some prev ∧
        args =
          { term := rf.currentTerm
            leaderId := rf.me
            prevLogIndex := rf.nextIndex server - 1
            prevLogTerm := prev.term
            entries := rf.log.drop (index + 1)
            leaderCommit := rf.commitIndex } := by
  unfold onRound at h
  split at h
  · rename_i hlead
    dsimp only at h
    split at h
    · simp at h
    · rename_i hge
      split at h
      · cases h
      · rename_i prev hprev
        obtain ⟨hpos, hlt, hget⟩ := logAt_eq_some hprev
        simp only [Option.some.injEq, Round.append.injEq] at h
        have hidx := Int.toNat_of_nonneg hpos
        refine ⟨hlead, by omega, _, prev, hidx.symm, hget, ?_⟩
        rw [← h]
        congr 1
        split
        · congr 1
          omega
        · rename_i hlast
          -- the previous entry is the last one, so there is nothing to drop
          have hlen : rf.log.length ≤ (rf.realIndex (rf.nextIndex server - 1)).toNat + 1 := by
            unfold getLastLogIndex logicIndex at hlast
            unfold realIndex at hidx ⊢
            omega
          rw [List.drop_eq_nil_of_le hlen]
  · simp at h

theorem installSnapshot_rf (gob : Gob (RaftImage n C) σ) (rf : Raft n C σ)
    (args : InstallSnapshotArgs n σ) :
    (rf.installSnapshot gob args).1 = rf.stepDown gob args.term := by
  unfold installSnapshot
  dsimp only
  split
  · rfl
  · split <;> rfl

theorem updateApplied_rf {rf rf' : Raft n C σ} {msgs : List (ApplyMsg C σ)}
    (h : rf.updateApplied = some (rf', msgs)) : rf' = { rf with lastApplied := rf.commitIndex } := by
  unfold updateApplied at h
  dsimp only at h
  split at h
  · cases h
  · simp only [Option.some.injEq, Prod.mk.injEq] at h
    exact h.1.symm

/-- `updateApplied` builds one command message for each index from `lastApplied + 1` to
`commitIndex`. -/
theorem updateApplied_msgs {rf rf' : Raft n C σ} {msgs : List (ApplyMsg C σ)}
    (h : rf.updateApplied = some (rf', msgs)) {msg : ApplyMsg C σ} (hmsg : msg ∈ msgs) :
    ∃ index e, rf.lastApplied < index ∧ index ≤ rf.commitIndex ∧ rf.entryAt index = some e ∧
      msg = { commandValid := true, command := e.command, commandIndex := index } := by
  unfold updateApplied at h
  dsimp only at h
  split at h
  · cases h
  · rename_i hmap
    simp only [Option.some.injEq, Prod.mk.injEq] at h
    obtain ⟨_, rfl⟩ := h
    obtain ⟨k, hk, hget⟩ := List.getElem_of_mem hmsg
    have hall := Lib.mapM_forall₂ hmap
    have hlen := hall.length_eq
    rw [List.length_range] at hlen
    have hcmd := hall.get (by rw [List.length_range]; omega) hk
    simp only [List.get_eq_getElem, List.getElem_range, hget] at hcmd
    unfold commandMsg at hcmd
    split at hcmd
    · cases hcmd
    · rename_i e he
      exact ⟨_, e, by omega, by omega, he, (Option.some.inj hcmd).symm⟩

/-- The message that `InstallSnapshot` hands to the service is the snapshot of the request. -/
theorem installSnapshot_msg {rf : Raft n C σ} {args : InstallSnapshotArgs n σ} {rf' : Raft n C σ}
    {reply : InstallSnapshotReply} {msg : ApplyMsg C σ}
    (h : rf.installSnapshot gob args = (rf', reply, some msg)) :
    msg =
      { snapshotValid := true
        snapshot := args.data
        snapshotTerm := args.lastIncludedTerm
        snapshotIndex := args.lastIncludedIndex } := by
  unfold installSnapshot at h
  dsimp only at h
  split at h
  · simp at h
  · split at h
    · simp at h
    · simp only [Prod.mk.injEq, Option.some.injEq] at h
      exact h.2.2.symm

/-- A refused snapshot changes nothing; an accepted one leaves a dummy entry with its term in front
of the entries that are kept, and is saved. -/
theorem condInstallSnapshot_cases {rf rf' : Raft n C σ} {t i : Int} {data : List σ}
    {accepted : Bool} (h : rf.condInstallSnapshot gob t i data = some (rf', accepted)) :
    (accepted = false ∧ i ≤ rf.commitIndex ∧ rf' = rf) ∨
      (accepted = true ∧ rf.commitIndex < i ∧
        ∃ rest, ∃ rf₁ : Raft n C σ,
          rf₁ = { rf with
            log := { command := none, term := t } :: rest
            commitIndex := i, lastApplied := i, lastIncludedIndex := i } ∧
          rf' = { rf₁ with persister := ⟨rf₁.raftState gob, data⟩ }) := by
  unfold condInstallSnapshot at h
  dsimp only at h
  split at h
  · rename_i hle
    simp only [Option.some.injEq, Prod.mk.injEq] at h
    exact Or.inl ⟨h.2.symm, hle, h.1.symm⟩
  · rename_i hnew
    split at h
    · cases h
    · cases h
    · rename_i _ rest _
      simp only [Option.some.injEq, Prod.mk.injEq] at h
      exact Or.inr ⟨h.2.symm, by omega, rest, _, rfl, h.1.symm⟩

/-- `Snapshot` refuses an index it has already covered; otherwise the entry at the index becomes the
dummy entry, with its term, and everything is saved. -/
theorem snapshot_cases {rf rf' : Raft n C σ} {i : Int} {data : List σ} {stored : Bool}
    (h : rf.snapshot gob i data = some (rf', stored)) :
    (stored = false ∧ i ≤ rf.lastIncludedIndex ∧ rf' = rf) ∨
      (stored = true ∧ rf.lastIncludedIndex < i ∧
        ∃ dummy rest, ∃ rf₁ : Raft n C σ,
          logAt rf.log (rf.realIndex i) = some dummy ∧
          rf.log.drop (rf.realIndex i).toNat = dummy :: rest ∧
          rf₁ = { rf with
            log := { dummy with command := none } :: rest
            lastIncludedIndex := i
            lastIncludedTerm := dummy.term
            lastApplied := if i > rf.lastApplied then i else rf.lastApplied } ∧
          rf' = { rf₁ with persister := ⟨rf₁.raftState gob, data⟩ }) := by
  unfold snapshot at h
  dsimp only at h
  split at h
  · rename_i hle
    simp only [Option.some.injEq, Prod.mk.injEq] at h
    exact Or.inl ⟨h.2.symm, hle, h.1.symm⟩
  · rename_i hle
    split at h
    · cases h
    · cases h
    · rename_i dummy rest hfrom
      simp only [Option.some.injEq, Prod.mk.injEq] at h
      unfold logFrom at hfrom
      split at hfrom
      · cases hfrom
      · rename_i hrange
        push Not at hrange
        rw [Option.some.injEq] at hfrom
        have hhead : rf.log[(rf.realIndex i).toNat]? = some dummy := by
          rw [← List.head?_drop, hfrom]
          rfl
        have hat : logAt rf.log (rf.realIndex i) = some dummy := by
          unfold logAt
          rw [if_neg (by omega), hhead]
        exact Or.inr ⟨h.2.symm, by omega, dummy, rest, _, hat, hfrom, rfl, h.1.symm⟩

end Raft

/-! ## Steps, branch by branch -/

/-- The step function as a relation, with one constructor for each way a step can end; `nd` is the
node that takes the step. -/
inductive Step (gob : Gob (RaftImage n C) σ) (w : World n C σ) :
    Action n C σ → World n C σ → Prop where
  | campaign (s : Fin n) {nd : Node n C σ} (hnd : w.nodes s = nd) (h : nd.rf.state ≠ .leader) :
      Step gob w (.electTimeout s)
        { w with
          nodes := Function.update w.nodes s
            { nd with rf := nd.rf.toCandidate gob, elects := nd.elects ++ [{}] }
          trace := .candidacy s (nd.rf.currentTerm + 1) :: w.trace }
  | timeoutLeader (s : Fin n) (h : (w.nodes s).rf.state = .leader) :
      Step gob w (.electTimeout s) w
  | electSkip (s : Fin n) (k : Nat) {nd : Node n C σ} {el : Elect n} (hnd : w.nodes s = nd)
      (hel : nd.elects[k]? = some el) (hnext : el.next < n) (hme : ⟨el.next, hnext⟩ = nd.rf.me) :
      Step gob w (.electRound s k)
        { w with
          nodes := Function.update w.nodes s
            { nd with elects := nd.elects.set k { el with next := el.next + 1 } } }
  | electSend (s : Fin n) (k : Nat) {nd : Node n C σ} {el : Elect n} {args : RequestVoteArgs n}
      {env : Envelope n (RequestVoteArgs n)} (hnd : w.nodes s = nd)
      (hel : nd.elects[k]? = some el) (hnext : el.next < n) (hme : ⟨el.next, hnext⟩ ≠ nd.rf.me)
      (hargs : nd.rf.voteArgs = some args)
      (henv : env = { rpc := w.nextRpc, dst := ⟨el.next, hnext⟩, args := args }) :
      Step gob w (.electRound s k)
        { w with
          nodes := Function.update w.nodes s
            { nd with
              elects := nd.elects.set k
                { el with next := el.next + 1, calls := env :: el.calls } }
          voteReqs := env :: w.voteReqs
          nextRpc := w.nextRpc + 1 }
  | requestVote (env : Envelope n (RequestVoteArgs n)) {nd : Node n C σ} {rf : Raft n C σ}
      {reply : RequestVoteReply} (hnd : w.nodes env.dst = nd) (henv : env ∈ w.voteReqs)
      (h : nd.rf.requestVote gob env.args = some (rf, reply)) :
      Step gob w (.requestVote env)
        { w with
          nodes := Function.update w.nodes env.dst { nd with rf := rf }
          voteReps := (env, reply) :: w.voteReps
          trace :=
            if reply.voteGranted then
              .granted env.dst rf.currentTerm env.args.candidateId :: w.trace
            else w.trace }
  | voteRetire (s : Fin n) (k : Nat) (env : Envelope n (RequestVoteArgs n))
      (reply : RequestVoteReply) {nd : Node n C σ} {el : Elect n} (hnd : w.nodes s = nd)
      (hel : nd.elects[k]? = some el) (hcall : env ∈ el.calls) (hrep : (env, reply) ∈ w.voteReps)
      (hlt : nd.rf.currentTerm < reply.term) :
      Step gob w (.voteReply s k env reply)
        { w with
          nodes := Function.update w.nodes s
            { nd with
              rf := nd.rf.toFollower gob reply.term none
              elects := nd.elects.set k { el with calls := el.calls.erase env } } }
  | voteIgnore (s : Fin n) (k : Nat) (env : Envelope n (RequestVoteArgs n))
      (reply : RequestVoteReply) {nd : Node n C σ} {el : Elect n} (hnd : w.nodes s = nd)
      (hel : nd.elects[k]? = some el) (hcall : env ∈ el.calls) (hrep : (env, reply) ∈ w.voteReps)
      (hle : reply.term ≤ nd.rf.currentTerm) :
      Step gob w (.voteReply s k env reply)
        { w with
          nodes := Function.update w.nodes s
            { nd with elects := nd.elects.set k { el with calls := el.calls.erase env } } }
  | voteCount (s : Fin n) (k : Nat) (env : Envelope n (RequestVoteArgs n))
      (reply : RequestVoteReply) {nd : Node n C σ} {el : Elect n} (hnd : w.nodes s = nd)
      (hel : nd.elects[k]? = some el) (hcall : env ∈ el.calls) (hrep : (env, reply) ∈ w.voteReps)
      (hstate : nd.rf.state = .candidate) (hterm : env.args.term = nd.rf.currentTerm)
      (hyes : reply.voteGranted = true) :
      Step gob w (.voteReply s k env reply)
        { w with
          nodes := Function.update w.nodes s
            { nd with
              elects := nd.elects.set k
                { el with
                  calls := el.calls.erase env
                  cnt := el.cnt + 1
                  counted := (env.dst, env.args.term) :: el.counted } } }
  | voteLead (s : Fin n) (k : Nat) (env : Envelope n (RequestVoteArgs n))
      (reply : RequestVoteReply) {nd : Node n C σ} {el : Elect n} (hnd : w.nodes s = nd)
      (hel : nd.elects[k]? = some el) (hcall : env ∈ el.calls) (hrep : (env, reply) ∈ w.voteReps)
      (hstate : nd.rf.state = .candidate) (hterm : env.args.term = nd.rf.currentTerm)
      (hyes : reply.voteGranted = true) (hcnt : el.cnt + 1 ≥ n / 2 + 1) :
      Step gob w (.voteReply s k env reply)
        { w with
          nodes := Function.update w.nodes s
            { nd with
              rf := nd.rf.toLeader
              elects := nd.elects.set k
                { el with
                  calls := el.calls.erase env
                  cnt := el.cnt + 1
                  counted := (env.dst, env.args.term) :: el.counted } }
          trace := .elected s nd.rf.currentTerm :: w.trace }
  | roundIdle (s server : Fin n) : Step gob w (.onRound s server) w
  | roundSnapshot (s server : Fin n) {nd : Node n C σ} {args : InstallSnapshotArgs n σ}
      {env : Envelope n (InstallSnapshotArgs n σ)} (hnd : w.nodes s = nd) (hne : server ≠ s)
      (h : nd.rf.onRound server = some (.snapshot args))
      (henv : env = { rpc := w.nextRpc, dst := server, args := args }) :
      Step gob w (.onRound s server)
        { w with
          nodes := Function.update w.nodes s { nd with snapshotCalls := env :: nd.snapshotCalls }
          snapshotReqs := env :: w.snapshotReqs
          nextRpc := w.nextRpc + 1 }
  | roundAppend (s server : Fin n) {nd : Node n C σ} {args : AppendEntriesArgs n C}
      {env : Envelope n (AppendEntriesArgs n C)} (hnd : w.nodes s = nd) (hne : server ≠ s)
      (h : nd.rf.onRound server = some (.append args))
      (henv : env = { rpc := w.nextRpc, dst := server, args := args }) :
      Step gob w (.onRound s server)
        { w with
          nodes := Function.update w.nodes s { nd with appendCalls := env :: nd.appendCalls }
          appendReqs := env :: w.appendReqs
          nextRpc := w.nextRpc + 1 }
  | appendEntries (env : Envelope n (AppendEntriesArgs n C)) {nd : Node n C σ} {rf : Raft n C σ}
      {reply : AppendEntriesReply} (hnd : w.nodes env.dst = nd) (henv : env ∈ w.appendReqs)
      (h : nd.rf.appendEntries gob env.args = some (rf, reply)) :
      Step gob w (.appendEntries env)
        { w with
          nodes := Function.update w.nodes env.dst { nd with rf := rf }
          appendReps := (env, reply) :: w.appendReps }
  | appendReply (s : Fin n) (env : Envelope n (AppendEntriesArgs n C)) (reply : AppendEntriesReply)
      {nd : Node n C σ} {rf : Raft n C σ} {calls : List (Envelope n (AppendEntriesArgs n C))}
      (hnd : w.nodes s = nd) (hcall : env ∈ nd.appendCalls) (hrep : (env, reply) ∈ w.appendReps)
      (h : nd.rf.handleAppendEntriesReply gob env.args { reply with sendTerm := env.args.term }
        env.dst = some rf)
      (hcalls : calls ⊆ nd.appendCalls) :
      Step gob w (.appendReply s env reply)
        { w with nodes := Function.update w.nodes s { nd with rf := rf, appendCalls := calls } }
  | installSnapshot (env : Envelope n (InstallSnapshotArgs n σ)) {nd : Node n C σ}
      {rf : Raft n C σ} {reply : InstallSnapshotReply} {msg : Option (ApplyMsg C σ)}
      (hnd : w.nodes env.dst = nd) (henv : env ∈ w.snapshotReqs)
      (h : nd.rf.installSnapshot gob env.args = (rf, reply, msg)) :
      Step gob w (.installSnapshot env)
        { w with
          nodes := Function.update w.nodes env.dst
            { nd with rf := rf, snapshots := nd.snapshots ++ msg.toList }
          snapshotReps := (env, reply) :: w.snapshotReps }
  | snapshotReply (s : Fin n) (env : Envelope n (InstallSnapshotArgs n σ))
      (reply : InstallSnapshotReply) {nd : Node n C σ}
      {calls : List (Envelope n (InstallSnapshotArgs n σ))} (hnd : w.nodes s = nd)
      (hcall : env ∈ nd.snapshotCalls) (hrep : (env, reply) ∈ w.snapshotReps)
      (hcalls : calls ⊆ nd.snapshotCalls) :
      Step gob w (.snapshotReply s env reply)
        { w with
          nodes := Function.update w.nodes s
            { nd with
              rf := nd.rf.handleSnapshotReply gob env.args.lastIncludedIndex reply env.dst
              snapshotCalls := calls } }
  | start (s : Fin n) (command : Option C) {nd : Node n C σ} (hnd : w.nodes s = nd) :
      Step gob w (.start s command)
        { w with nodes := Function.update w.nodes s { nd with rf := (nd.rf.start gob command).1 } }
  | wakeApplier (s : Fin n) {nd : Node n C σ} {rf : Raft n C σ} (hnd : w.nodes s = nd)
      (hrf : nd.rf = rf) (hch : rf.commitChan = true) (hawake : nd.applierAwake = false)
      (hbatch : nd.batch = []) :
      Step gob w (.wakeApplier s)
        { w with
          nodes := Function.update w.nodes s
            { nd with rf := { rf with commitChan := false }, applierAwake := true } }
  | updateApplied (s : Fin n) {nd : Node n C σ} {rf : Raft n C σ} {msgs : List (ApplyMsg C σ)}
      (hnd : w.nodes s = nd) (hawake : nd.applierAwake = true)
      (h : nd.rf.updateApplied = some (rf, msgs)) :
      Step gob w (.updateApplied s)
        { w with
          nodes := Function.update w.nodes s
            { nd with rf := rf, applierAwake := false, batch := msgs } }
  | sendCommand (s : Fin n) {nd : Node n C σ} {msg : ApplyMsg C σ} {rest : List (ApplyMsg C σ)}
      (hnd : w.nodes s = nd) (hch : nd.applyCh = none) (hbatch : nd.batch = msg :: rest) :
      Step gob w (.sendCommand s)
        { w with
          nodes := Function.update w.nodes s { nd with applyCh := some msg, batch := rest }
          trace := .applied s msg.commandIndex msg.command :: w.trace }
  | sendSnapshot (s : Fin n) (k : Nat) {nd : Node n C σ} {msg : ApplyMsg C σ}
      (hnd : w.nodes s = nd) (hch : nd.applyCh = none) (hmsg : nd.snapshots[k]? = some msg) :
      Step gob w (.sendSnapshot s k)
        { w with
          nodes := Function.update w.nodes s
            { nd with applyCh := some msg, snapshots := nd.snapshots.eraseIdx k } }
  | serviceDone (s : Fin n) {nd : Node n C σ} (hnd : w.nodes s = nd) :
      Step gob w (.serviceDone s)
        { w with nodes := Function.update w.nodes s { nd with applyCh := none } }
  | condInstallSnapshot (s : Fin n) {nd : Node n C σ} {msg : ApplyMsg C σ} {rf : Raft n C σ}
      {accepted : Bool} (hnd : w.nodes s = nd) (hch : nd.applyCh = some msg)
      (hvalid : msg.snapshotValid = true)
      (h : nd.rf.condInstallSnapshot gob msg.snapshotTerm msg.snapshotIndex msg.snapshot
        = some (rf, accepted)) :
      Step gob w (.condInstallSnapshot s)
        { w with
          nodes := Function.update w.nodes s { nd with rf := rf, applyCh := none }
          trace :=
            if accepted then
              .installed s msg.snapshotIndex msg.snapshotTerm msg.snapshot :: w.trace
            else w.trace }
  | snapshot (s : Fin n) (index : Int) (data : List σ) {nd : Node n C σ} {rf : Raft n C σ}
      {stored : Bool} (hnd : w.nodes s = nd)
      (h : nd.rf.snapshot gob index data = some (rf, stored)) :
      Step gob w (.snapshot s index data)
        { w with
          nodes := Function.update w.nodes s { nd with rf := rf }
          trace := noteTaken s nd.rf index data stored w.trace }
  | crash (s : Fin n) {nd : Node n C σ} {rf : Raft n C σ} (hnd : w.nodes s = nd)
      (h : Raft.make gob s nd.rf.persister = some rf) :
      Step gob w (.crash s) { w with nodes := Function.update w.nodes s { rf := rf } }

/-- Besides what was noted down before there is at most the covered entry. -/
theorem mem_noteTaken {s : Fin n} {rf : Raft n C σ} {index : Int} {data : List σ} {stored : Bool}
    {tr : List (Event n C σ)} {ev : Event n C σ} (h : ev ∈ noteTaken s rf index data stored tr) :
    ev ∈ tr ∨ ∃ e, rf.entryAt index = some e ∧ ev = .taken s index e.term data := by
  unfold noteTaken at h
  split at h
  · rename_i e hentry
    rcases List.mem_cons.mp h with heq | hold
    · exact Or.inr ⟨e, hentry, heq⟩
    · exact Or.inl hold
  · exact Or.inl h

theorem Raft.countsVote_iff {rf : Raft n C σ} {reply : RequestVoteReply} :
    rf.countsVote reply = true ↔
      rf.state = .candidate ∧ reply.sendTerm = rf.currentTerm ∧ reply.voteGranted = true := by
  unfold countsVote
  cases reply.voteGranted <;> simp

namespace World

variable [DecidableEq C] [DecidableEq σ]

/-- The inversion lemma for `step`. -/
theorem step_inv {w w' : World n C σ} {a : Action n C σ} (h : w.step gob a = some w') :
    Step gob w a w' := by
  cases a with
  | electTimeout s =>
      simp only [step, electTimeout, Option.some.injEq] at h
      split at h
      · rename_i hs
        subst h
        exact .campaign s rfl hs
      · rename_i hs
        subst h
        exact .timeoutLeader s (not_not.mp hs)
  | electRound s k =>
      simp only [step, electRound] at h
      split at h
      · cases h
      · rename_i hel
        split at h
        · rename_i hnext
          split at h
          · rename_i hme
            rw [← Option.some.inj h]
            exact .electSkip s k rfl hel hnext hme
          · rename_i hme
            split at h
            · cases h
            · rename_i hargs
              rw [← Option.some.inj h]
              exact .electSend s k rfl hel hnext hme hargs rfl
        · cases h
  | requestVote env =>
      simp only [step, requestVote] at h
      split at h
      · rename_i henv
        split at h
        · cases h
        · rename_i hv
          rw [← Option.some.inj h]
          exact .requestVote env rfl henv hv
      · cases h
  | voteReply s k env reply =>
      simp only [step, voteReply] at h
      split at h
      · cases h
      · rename_i hel
        split at h
        · rename_i hmem
          split at h
          · rename_i hlt
            rw [← Option.some.inj h]
            exact .voteRetire s k env reply rfl hel hmem.1 hmem.2 hlt
          · rename_i hle
            split at h
            · rename_i hcount
              obtain ⟨hstate, hterm, hyes⟩ := Raft.countsVote_iff.mp hcount
              split at h
              · rename_i hcnt
                rw [← Option.some.inj h]
                exact .voteLead s k env reply rfl hel hmem.1 hmem.2 hstate hterm hyes hcnt
              · rw [← Option.some.inj h]
                exact .voteCount s k env reply rfl hel hmem.1 hmem.2 hstate hterm hyes
            · rw [← Option.some.inj h]
              exact .voteIgnore s k env reply rfl hel hmem.1 hmem.2 (not_lt.mp hle)
        · cases h
  | onRound s server =>
      simp only [step, onRound] at h
      split at h
      · cases h
      · rename_i hne
        split at h
        · cases h
        · rw [← Option.some.inj h]
          exact .roundIdle s server
        · rename_i hr
          rw [← Option.some.inj h]
          exact .roundSnapshot s server rfl hne hr rfl
        · rename_i hr
          rw [← Option.some.inj h]
          exact .roundAppend s server rfl hne hr rfl
  | appendEntries env =>
      simp only [step, appendEntries] at h
      split at h
      · rename_i henv
        split at h
        · cases h
        · rename_i hv
          rw [← Option.some.inj h]
          exact .appendEntries env rfl henv hv
      · cases h
  | appendReply s env reply =>
      simp only [step, appendReply] at h
      split at h
      · rename_i hmem
        split at h
        · cases h
        · rename_i hv
          rw [← Option.some.inj h]
          exact .appendReply s env reply rfl hmem.1 hmem.2 hv List.erase_subset
      · cases h
  | installSnapshot env =>
      simp only [step, installSnapshot] at h
      split at h
      · rename_i henv
        rw [← Option.some.inj h]
        exact .installSnapshot env rfl henv rfl
      · cases h
  | snapshotReply s env reply =>
      simp only [step, snapshotReply] at h
      split at h
      · rename_i hmem
        rw [← Option.some.inj h]
        exact .snapshotReply s env reply rfl hmem.1 hmem.2 List.erase_subset
      · cases h
  | start s command =>
      simp only [step, start, Option.some.injEq] at h
      subst h
      exact .start s command rfl
  | wakeApplier s =>
      simp only [step, wakeApplier] at h
      split at h
      · rename_i hc
        rw [← Option.some.inj h]
        exact .wakeApplier s rfl rfl hc.1 (Bool.not_eq_true _ ▸ hc.2.1) hc.2.2
      · cases h
  | updateApplied s =>
      simp only [step, updateApplied] at h
      split at h
      · rename_i hawake
        split at h
        · cases h
        · rename_i hv
          rw [← Option.some.inj h]
          exact .updateApplied s rfl hawake hv
      · cases h
  | sendCommand s =>
      simp only [step, sendCommand] at h
      split at h
      · rename_i hch hbatch
        rw [← Option.some.inj h]
        exact .sendCommand s rfl hch hbatch
      · cases h
  | sendSnapshot s k =>
      simp only [step, sendSnapshot] at h
      split at h
      · rename_i hch hmsg
        rw [← Option.some.inj h]
        exact .sendSnapshot s k rfl hch hmsg
      · cases h
  | serviceDone s =>
      simp only [step, serviceDone, Option.some.injEq] at h
      subst h
      exact .serviceDone s rfl
  | condInstallSnapshot s =>
      simp only [step, condInstallSnapshot] at h
      split at h
      · cases h
      · rename_i hch
        split at h
        · rename_i hvalid
          split at h
          · cases h
          · rename_i hv
            rw [← Option.some.inj h]
            exact .condInstallSnapshot s rfl hch hvalid hv
        · cases h
  | snapshot s index data =>
      simp only [step, snapshot] at h
      split at h
      · cases h
      · rename_i hv
        rw [← Option.some.inj h]
        exact .snapshot s index data rfl hv
  | crash s =>
      simp only [step, crash, Persister.copy_eq] at h
      split at h
      · cases h
      · rename_i hv
        rw [← Option.some.inj h]
        exact .crash s rfl hv

end World

/-! ## The sections of one server -/

/-- `LockSection gob s rf rf'`: some lock-held section (or a restart) of server `s` takes `rf` to
`rf'`. -/
inductive LockSection (gob : Gob (RaftImage n C) σ) (s : Fin n) (rf : Raft n C σ) :
    Raft n C σ → Prop where
  | idle : LockSection gob s rf rf
  | campaign (h : rf.state ≠ .leader) : LockSection gob s rf (rf.toCandidate gob)
  | vote {rf' args reply} (h : rf.requestVote gob args = some (rf', reply)) :
      LockSection gob s rf rf'
  | retire (term : Int) (h : rf.currentTerm < term) :
      LockSection gob s rf (rf.toFollower gob term none)
  | lead (h : rf.state = .candidate) : LockSection gob s rf rf.toLeader
  | append {rf' args reply} (h : rf.appendEntries gob args = some (rf', reply)) :
      LockSection gob s rf rf'
  | appendReply {rf' args reply server}
      (h : rf.handleAppendEntriesReply gob args reply server = some rf') : LockSection gob s rf rf'
  | install (args) : LockSection gob s rf (rf.installSnapshot gob args).1
  | snapshotReply (index reply server) :
      LockSection gob s rf (rf.handleSnapshotReply gob index reply server)
  | start (command) : LockSection gob s rf (rf.start gob command).1
  | wake : LockSection gob s rf { rf with commitChan := false }
  | apply {rf' msgs} (h : rf.updateApplied = some (rf', msgs)) : LockSection gob s rf rf'
  | condInstall {rf' t i data accepted}
      (h : rf.condInstallSnapshot gob t i data = some (rf', accepted)) : LockSection gob s rf rf'
  | snapshot {rf' i data stored} (h : rf.snapshot gob i data = some (rf', stored)) :
      LockSection gob s rf rf'
  | restart {rf'} (h : Raft.make gob s rf.persister = some rf') : LockSection gob s rf rf'

namespace World

/-- Replacing one node by one that a section leads to is a section of every node. -/
theorem lockSection_update {w : World n C σ} {s : Fin n} {nd : Node n C σ}
    (h : LockSection gob s (w.nodes s).rf nd.rf) (t : Fin n) :
    LockSection gob t (w.nodes t).rf (Function.update w.nodes s nd t).rf := by
  refine (Function.forall_update_iff w.nodes fun t nd ↦
    LockSection gob t (w.nodes t).rf nd.rf).mpr ⟨h, ?_⟩ t
  intro t _
  exact .idle

/-- Every step is a section of every server, the idle one for all servers but one. -/
theorem step_lockSection {w w' : World n C σ} {a : Action n C σ} (h : Step gob w a w')
    (t : Fin n) : LockSection gob t (w.nodes t).rf (w'.nodes t).rf := by
  cases h with
  | timeoutLeader s h => exact .idle
  | roundIdle s server => exact .idle
  | campaign s hnd h =>
      subst hnd
      exact lockSection_update (by exact .campaign h) t
  | requestVote env hnd henv h =>
      subst hnd
      exact lockSection_update (by exact .vote h) t
  | voteRetire s k env reply hnd hel hcall hrep hlt =>
      subst hnd
      exact lockSection_update (by exact .retire _ hlt) t
  | voteLead s k env reply hnd hel hcall hrep hstate hterm hyes hcnt =>
      subst hnd
      exact lockSection_update (by exact .lead hstate) t
  | appendEntries env hnd henv h =>
      subst hnd
      exact lockSection_update (by exact .append h) t
  | appendReply s env reply hnd hcall hrep h hcalls =>
      subst hnd
      exact lockSection_update (by exact .appendReply h) t
  | installSnapshot env hnd henv h =>
      subst hnd
      have hsec : LockSection gob env.dst (w.nodes env.dst).rf
          ((w.nodes env.dst).rf.installSnapshot gob env.args).1 := .install env.args
      rw [h] at hsec
      exact lockSection_update (by exact hsec) t
  | snapshotReply s env reply hnd hcall hrep hcalls =>
      subst hnd
      exact lockSection_update (by exact .snapshotReply _ _ _) t
  | start s command hnd =>
      subst hnd
      exact lockSection_update (by exact .start command) t
  | wakeApplier s hnd hrf hch hawake hbatch =>
      subst hnd hrf
      exact lockSection_update (by exact .wake) t
  | updateApplied s hnd hawake h =>
      subst hnd
      exact lockSection_update (by exact .apply h) t
  | condInstallSnapshot s hnd hch hvalid h =>
      subst hnd
      exact lockSection_update (by exact .condInstall h) t
  | snapshot s index data hnd h =>
      subst hnd
      exact lockSection_update (by exact .snapshot h) t
  | crash s hnd h =>
      subst hnd
      exact lockSection_update (by exact .restart h) t
  -- the remaining steps only move goroutines and messages
  | electSkip _ _ hnd _ _ _ | electSend _ _ hnd _ _ _ _ _ | voteIgnore _ _ _ _ hnd _ _ _ _
  | voteCount _ _ _ _ hnd _ _ _ _ _ _ | roundSnapshot _ _ hnd _ _ _ | roundAppend _ _ hnd _ _ _
  | sendCommand _ hnd _ _ | sendSnapshot _ _ hnd _ _ | serviceDone _ hnd =>
      subst hnd
      exact lockSection_update (by exact .idle) t

/-- No step erases anything that the observer has noted down. -/
theorem step_trace {w w' : World n C σ} {a : Action n C σ} (h : Step gob w a w') :
    w.trace <:+ w'.trace := by
  cases h with
  | requestVote | condInstallSnapshot =>
      dsimp only
      split
      · exact List.suffix_cons _ _
      · exact List.suffix_refl _
  | snapshot =>
      dsimp only [noteTaken]
      split
      · exact List.suffix_cons _ _
      · exact List.suffix_refl _
  | campaign | voteLead | sendCommand => exact List.suffix_cons _ _
  | _ => exact List.suffix_refl _

/-- What a fresh server satisfies and every section keeps holds of every server in every run. -/
theorem local_invariant [DecidableEq C] [DecidableEq σ] {P : Fin n → Raft n C σ → Prop}
    (hinit : ∀ s, P s (Raft.fresh s {}))
    (hsec : ∀ s rf rf', P s rf → LockSection gob s rf rf' → P s rf')
    {w : World n C σ} {as : List (Action n C σ)} (hrun : Lib.run (step gob) init as = some w)
    (s : Fin n) : P s (w.nodes s).rf := by
  have key : ∀ t, P t (w.nodes t).rf := by
    refine Lib.run_invariant (I := fun v ↦ ∀ t, P t (v.nodes t).rf) ?_ hinit
      (Lib.along_true init as) hrun
    intro v a v' hv _ hstep t
    exact hsec t _ _ (hv t) (step_lockSection (step_inv hstep) t)
  exact key s

theorem run_trace [DecidableEq C] [DecidableEq σ] {w w' : World n C σ}
    {as : List (Action n C σ)} (hrun : Lib.run (step gob) w as = some w') :
    w.trace <:+ w'.trace :=
  Lib.run_relation (I := fun _ ↦ True) (R := fun v v' ↦ v.trace <:+ v'.trace)
    (fun _ ↦ List.suffix_refl _) (fun _ _ _ ↦ List.IsSuffix.trans)
    (fun _ _ _ _ _ hstep ↦ ⟨trivial, step_trace (step_inv hstep)⟩) trivial
    (Lib.along_true w as) hrun

theorem lockSection_me {s : Fin n} {rf rf' : Raft n C σ} (hme : rf.me = s)
    (h : LockSection gob s rf rf') : rf'.me = s := by
  have hdown : ∀ term, (rf.stepDown gob term).me = s := by
    intro term
    rcases Raft.stepDown_cases gob rf term with ⟨_, he⟩ | ⟨_, he⟩ <;> rw [he] <;> exact hme
  have hadown : ∀ term, (rf.appendStepDown gob term).me = s := by
    intro term
    rcases Raft.appendStepDown_cases gob rf term with ⟨_, he⟩ | ⟨_, _, he⟩ <;> rw [he] <;> exact hme
  cases h with
  | vote hv =>
      rcases Raft.requestVote_cases hv with ⟨_, rfl⟩ | ⟨_, _, _, _, rfl⟩
      · exact hdown _
      · exact hdown _
  | append hv =>
      rcases (Raft.appendEntries_cases hv).2 with ⟨_, rfl⟩ | ⟨_, _, pli, _, _, _, _, rfl⟩
      · exact hadown _
      · obtain ⟨rf₁, ci, ch, he, hrf⟩ := Raft.mergeEntries_cases gob _ _ pli
        rw [he]
        rcases hrf with rfl | rfl
        · exact hadown _
        · exact hadown _
  | appendReply hv =>
      obtain ⟨ni, mi, ci, ch, rfl⟩ := Raft.handleAppendEntriesReply_cases hv
      exact hdown _
  | install args =>
      rw [Raft.installSnapshot_rf]
      exact hdown _
  | snapshotReply index reply server =>
      unfold Raft.handleSnapshotReply
      split <;> exact hme
  | start command =>
      unfold Raft.start
      split <;> exact hme
  | apply hv =>
      rw [Raft.updateApplied_rf hv]
      exact hme
  | condInstall hv =>
      rcases Raft.condInstallSnapshot_cases hv with ⟨_, _, rfl⟩ | ⟨_, _, rest, rf₁, rfl, rfl⟩
      · exact hme
      · exact hme
  | snapshot hv =>
      rcases Raft.snapshot_cases hv with ⟨_, _, rfl⟩ | ⟨_, _, d, rest, rf₁, _, _, rfl, rfl⟩
      · exact hme
      · exact hme
  | restart hv =>
      unfold Raft.make at hv
      dsimp only at hv
      split at hv
      · cases hv
      · rw [← Option.some.inj hv]
        unfold Raft.readPersist
        dsimp only
        split
        · rfl
        · split <;> rfl
  | idle | campaign | retire | lead | wake => exact hme

end World

end Lab6824
