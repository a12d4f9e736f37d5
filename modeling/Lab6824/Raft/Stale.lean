import Lab6824.Raft.Indices

/-!
# Stale — which snapshots `CondInstallSnapshot` takes

`CondInstallSnapshot` compares the index of a snapshot with `commitIndex`, but cuts the log relative
to `lastIncludedIndex`.  A restart keeps the second and sets the first back to 0, so until the server
learns of a commit again it takes snapshots that are older than its own.
-/

namespace Lab6824

variable {n : Nat} {C σ : Type} {gob : Gob (RaftImage n C) σ}

namespace Raft

variable {rf : Raft n C σ} {i : Int}

theorem condInstallSnapshot_refused (h : i ≤ rf.commitIndex) (t : Int) (data : List σ) :
    rf.condInstallSnapshot gob t i data = some (rf, false) := by
  unfold condInstallSnapshot
  rw [if_pos h]

/-- The slice of a snapshot before the boundary would start at a negative index. -/
theorem condInstallSnapshot_before (hne : rf.log ≠ []) (hnew : rf.commitIndex < i)
    (hbase : i < rf.lastIncludedIndex) (t : Int) (data : List σ) :
    rf.condInstallSnapshot gob t i data = none := by
  have hlen := List.length_pos_iff.mpr hne
  have hlast : ¬ rf.getLastLogIndex ≤ i := by
    rw [getLastLogIndex_eq]
    omega
  have hfrom : logFrom rf.log (rf.realIndex i) = none := by
    unfold logFrom realIndex
    rw [if_pos (by omega)]
  unfold condInstallSnapshot
  dsimp only
  rw [if_neg (not_le.mpr hnew), if_neg hlast, hfrom]

/-- From the boundary on the slice is in range, and the log ends where it did or at the snapshot. -/
theorem condInstallSnapshot_from (gob : Gob (RaftImage n C) σ) (hnew : rf.commitIndex < i)
    (hbase : rf.lastIncludedIndex ≤ i) (t : Int) (data : List σ) :
    ∃ rf', rf.condInstallSnapshot gob t i data = some (rf', true) ∧
      rf'.lastIncludedIndex = i ∧ rf'.commitIndex = i ∧ rf'.lastApplied = i ∧
      rf'.getLastLogIndex = max rf.getLastLogIndex i := by
  unfold condInstallSnapshot
  dsimp only
  rw [if_neg (not_le.mpr hnew)]
  by_cases hlast : rf.getLastLogIndex ≤ i
  · rw [if_pos hlast]
    refine ⟨_, rfl, rfl, rfl, rfl, ?_⟩
    rw [max_eq_right hlast, getLastLogIndex_eq]
    simp
  · rw [if_neg hlast]
    rw [getLastLogIndex_eq] at hlast
    have hrange : ¬ (rf.realIndex i < 0 ∨ rf.realIndex i > rf.log.length) := by
      unfold realIndex
      omega
    rw [logFrom, if_neg hrange]
    have hdrop : (rf.log.drop (rf.realIndex i).toNat).length =
        rf.log.length - (rf.realIndex i).toNat := List.length_drop
    unfold realIndex at hdrop ⊢
    cases hcut : rf.log.drop (i - rf.lastIncludedIndex).toNat with
    | nil =>
        rw [hcut, List.length_nil] at hdrop
        omega
    | cons d rest =>
        rw [hcut, List.length_cons] at hdrop
        refine ⟨_, rfl, rfl, rfl, rfl, ?_⟩
        rw [getLastLogIndex_eq, getLastLogIndex_eq, max_eq_left (by omega)]
        dsimp only
        rw [List.length_cons]
        omega

/-- What a call with a snapshot of index `i` should do: change nothing and refuse it, or install a
snapshot that is newer than the server's own, and keep the end of the log. -/
def RefusesStale (gob : Gob (RaftImage n C) σ) (rf : Raft n C σ) (t i : Int) (data : List σ) :
    Prop :=
  rf.condInstallSnapshot gob t i data = some (rf, false) ∨
    ∃ rf', rf.condInstallSnapshot gob t i data = some (rf', true) ∧ rf.lastIncludedIndex < i ∧
      rf'.lastIncludedIndex = i ∧ rf'.commitIndex = i ∧ rf'.lastApplied = i ∧
      rf'.getLastLogIndex = max rf.getLastLogIndex i

end Raft

/-- In every state that a cluster reaches, a call does what it should exactly if `commitIndex` has
the snapshot refused or the snapshot is newer than the server's own. -/
theorem refuses_stale_iff [DecidableEq C] [DecidableEq σ] {w : World n C σ}
    {as : List (Action n C σ)} (hrun : Lib.run (World.step gob) World.init as = some w) (s : Fin n)
    (t i : Int) (data : List σ) :
    (w.nodes s).rf.RefusesStale gob t i data ↔
      i ≤ (w.nodes s).rf.commitIndex ∨ (w.nodes s).rf.lastIncludedIndex < i := by
  have hne := (Durable.run hrun s).log_ne_nil
  generalize (w.nodes s).rf = rf at hne
  constructor
  · rintro (hrefused | ⟨rf', _, hlt, _⟩)
    · by_contra hbad
      push Not at hbad
      -- past the test the call panics or accepts the snapshot
      rcases hbad.2.lt_or_eq with hbefore | hat
      · rw [Raft.condInstallSnapshot_before hne hbad.1 hbefore] at hrefused
        cases hrefused
      · obtain ⟨rf', hacc, _⟩ := Raft.condInstallSnapshot_from gob hbad.1 hat.ge t data
        rw [hacc, Option.some.injEq, Prod.mk.injEq] at hrefused
        exact Bool.noConfusion hrefused.2
    · exact Or.inr hlt
  · intro h
    by_cases hold : i ≤ rf.commitIndex
    · exact Or.inl (Raft.condInstallSnapshot_refused hold t data)
    · have hnew := h.resolve_left hold
      obtain ⟨rf', hacc, hends⟩ :=
        Raft.condInstallSnapshot_from gob (not_le.mp hold) hnew.le t data
      exact Or.inr ⟨rf', hacc, hnew, hends⟩

/-- Server 0 commits two commands with server 1 and sends them to server 2, which applies and
compacts both; its reply is lost.  Server 2 restarts, and server 0, which has compacted the first
command only, sends it its snapshot. -/
def restartRun : List (Action 3 Nat (RaftImage 3 Nat)) :=
  let vote : Envelope 3 (RequestVoteArgs 3) := ⟨0, 1, ⟨1, 0, 0, 0⟩⟩
  let append (rpc : Nat) (dst : Fin 3) (commit : Int) : Envelope 3 (AppendEntriesArgs 3 Nat) :=
    ⟨rpc, dst, ⟨1, 0, 0, 0, [⟨some 7, 1⟩, ⟨some 8, 1⟩], commit⟩⟩
  let install : Envelope 3 (InstallSnapshotArgs 3 (RaftImage 3 Nat)) :=
    ⟨3, 2, ⟨1, 0, 1, 1, [bootImage]⟩⟩
  [ .electTimeout 0, .electRound 0 0, .electRound 0 0, .requestVote vote,
    .voteReply 0 0 vote { term := 1, voteGranted := true }, .start 0 (some 7), .start 0 (some 8),
    .onRound 0 1, .appendEntries (append 1 1 0),
    .appendReply 0 (append 1 1 0) { term := 1, success := true },
    .onRound 0 2, .appendEntries (append 2 2 2), .wakeApplier 2, .updateApplied 2, .sendCommand 2,
    .serviceDone 2, .sendCommand 2, .serviceDone 2, .snapshot 2 2 [bootImage], .crash 2,
    .wakeApplier 0, .updateApplied 0, .sendCommand 0, .snapshot 0 1 [bootImage], .serviceDone 0,
    .onRound 0 2, .installSnapshot install, .sendSnapshot 2 0 ]

/-- The snapshot of index 1 passes the test of the restarted server, which has one of index 2, and
the slice of its log starts at -1. -/
theorem stale_snapshot_taken :
    ∃ w, Lib.run (World.step (Gob.plain (RaftImage 3 Nat))) World.init restartRun = some w ∧
      (w.nodes 2).applyCh.map (fun msg ↦ (msg.snapshotTerm, msg.snapshotIndex, msg.snapshot)) =
        some (1, 1, [bootImage]) ∧
      (w.nodes 2).rf.commitIndex = 0 ∧ (w.nodes 2).rf.lastIncludedIndex = 2 ∧
      (w.nodes 2).rf.condInstallSnapshot (Gob.plain (RaftImage 3 Nat)) 1 1 [bootImage] = none ∧
      ¬ (w.nodes 2).rf.RefusesStale (Gob.plain (RaftImage 3 Nat)) 1 1 [bootImage] := by
  have hcheck : (Lib.run (World.step (Gob.plain (RaftImage 3 Nat))) World.init restartRun).any
      (fun w ↦ decide ((w.nodes 2).applyCh.map
          (fun msg ↦ (msg.snapshotTerm, msg.snapshotIndex, msg.snapshot)) =
            some (1, 1, [bootImage]) ∧
        (w.nodes 2).rf.commitIndex = 0 ∧ (w.nodes 2).rf.lastIncludedIndex = 2 ∧
        ((w.nodes 2).rf.condInstallSnapshot (Gob.plain (RaftImage 3 Nat)) 1 1
          [bootImage]).isNone = true)) = true := by
    decide +kernel
  obtain ⟨w, hrun, hw⟩ := Lib.exists_run_of_any hcheck
  obtain ⟨hch, hci, hbase, hnone⟩ := of_decide_eq_true hw
  have hpanic := Option.isNone_iff_eq_none.mp hnone
  refine ⟨w, hrun, hch, hci, hbase, hpanic, ?_⟩
  rintro (hrefused | ⟨rf', hacc, _⟩)
  · rw [hpanic] at hrefused
    cases hrefused
  · rw [hpanic] at hacc
    cases hacc

/-- Before the restart the same snapshot is refused. -/
theorem refuses_stale_before_restart :
    ∃ w, Lib.run (World.step (Gob.plain (RaftImage 3 Nat))) World.init (restartRun.take 19) =
        some w ∧
      (w.nodes 2).rf.lastIncludedIndex = 2 ∧
      (w.nodes 2).rf.RefusesStale (Gob.plain (RaftImage 3 Nat)) 1 1 [bootImage] := by
  have hcheck : (Lib.run (World.step (Gob.plain (RaftImage 3 Nat))) World.init
      (restartRun.take 19)).any (fun w ↦ decide ((w.nodes 2).rf.lastIncludedIndex = 2 ∧
        1 ≤ (w.nodes 2).rf.commitIndex)) = true := by
    decide +kernel
  obtain ⟨w, hrun, hw⟩ := Lib.exists_run_of_any hcheck
  obtain ⟨hbase, hci⟩ := of_decide_eq_true hw
  exact ⟨w, hrun, hbase, (refuses_stale_iff hrun 2 1 1 [bootImage]).mpr (Or.inl hci)⟩

end Lab6824
