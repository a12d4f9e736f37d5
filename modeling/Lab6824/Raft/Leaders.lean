import Lab6824.Raft.Safety

/-!
# Leaders — what a leader has, and what it keeps

Two properties of leaders over whole runs without compaction, under the conditions of `Safety`: a
leader has every entry that any server has known to be committed up to its term, and while it leads
its log is only extended.  Both are read off the replicated logs that the cluster mirrors.
-/

namespace Lab6824

variable {n : Nat} {C σ : Type} {gob : Gob (RaftImage n C) σ}

open Lib (Replica Grows Majority Committed)

/-! ## The mirror of a leader -/

namespace Mirrors

variable {v w : World n C σ} {g : Replica (Fin n) (Log C)}

/-- The log of a leader is the longest log of its term. -/
theorem leads (h : Mirrors gob w g) {t : Fin n} (hlead : (w.nodes t).rf.state = .leader) :
    g.llog (w.nodes t).rf.currentTerm = (w.nodes t).rf.log.tail ∧
      ∃ X, g.elog (w.nodes t).rf.currentTerm = some X :=
  ⟨(h.sim.nodes t).leads hlead, h.sim.elected t _ (h.leader t hlead)⟩

/-- A log that begins with another has its entries. -/
theorem entryAt_of_isPrefix (h : FlatInv gob v) (h' : FlatInv gob w) {s t : Fin n} {k : Nat}
    (hpre : (v.nodes s).rf.log.tail.take k <+: (w.nodes t).rf.log.tail) {i : Int} (hpos : 1 ≤ i)
    (hik : i ≤ k) {e : Log C} (he : (v.nodes s).rf.entryAt i = some e) :
    (w.nodes t).rf.entryAt i = some e := by
  obtain ⟨j, rfl⟩ : ∃ j : Nat, i = j + 1 := ⟨(i - 1).toNat, by omega⟩
  rw [h.entryAt] at he
  rw [h'.entryAt]
  apply Lib.getElem?_of_isPrefix hpre
  rw [List.getElem?_take_of_lt (by omega)]
  exact he

end Mirrors

/-! ## Leader completeness -/

/-- An entry that some server knows to be committed is in the log of every leader that comes later
and whose term is not behind that server's. -/
theorem leader_completeness [DecidableEq C] [DecidableEq σ] {gob : Gob (RaftImage n C) σ}
    {v w : World n C σ} {pre post : List (Action n C σ)}
    (hok : Lib.Along (World.step gob) Agreeing World.init (pre ++ post))
    (hpre : Lib.run (World.step gob) World.init pre = some v)
    (hpost : Lib.run (World.step gob) v post = some w) {s t : Fin n}
    (hlead : (w.nodes t).rf.state = .leader)
    (hterm : (v.nodes s).rf.currentTerm ≤ (w.nodes t).rf.currentTerm) {i : Int} (hi : 1 ≤ i)
    (hcommit : i ≤ (v.nodes s).rf.commitIndex) :
    ∃ e, (v.nodes s).rf.entryAt i = some e ∧ (w.nodes t).rf.entryAt i = some e := by
  obtain ⟨hokpre, hokpost⟩ := (Lib.along_append hpre).mp hok
  obtain ⟨g, hg⟩ := Mirrors.of_run hokpre hpre
  obtain ⟨g', hgrow, hg'⟩ := hg.run hokpost hpost
  have hknown := hg.commit.known s
  obtain ⟨hllog, X, hX⟩ := hg'.leads hlead
  -- what was committed then is committed now, and the leader's log begins with it
  have hcom := hknown.committed.mono hgrow hterm
  have hpref := hcom.isPrefix_llog (fun _ _ ↦ Majority.inter) hg'.keep (le_refl _) hX
  rw [hllog] at hpref
  have hlen := hknown.le_length
  obtain ⟨k, rfl⟩ : ∃ k : Nat, i = k + 1 := ⟨(i - 1).toNat, by omega⟩
  have hget : (v.nodes s).rf.entryAt (k + 1) = some ((v.nodes s).rf.log.tail[k]) := by
    rw [hg.flat.entryAt]
    exact List.getElem?_eq_getElem (by omega)
  exact ⟨_, hget, Mirrors.entryAt_of_isPrefix hg.flat hg'.flat hpref hi (by omega) hget⟩

/-- Server 1, which has stored both, becomes leader of term 2 with the vote of server 2 and takes a
command of its own. -/
def succeedRun : List (Action 3 Nat (RaftImage 3 Nat)) :=
  let vote : Envelope 3 (RequestVoteArgs 3) := ⟨3, 2, ⟨2, 1, 2, 1⟩⟩
  [ .electTimeout 1, .electRound 1 0, .electRound 1 0, .electRound 1 0, .requestVote vote,
    .voteReply 1 0 vote { term := 2, voteGranted := true }, .start 1 (some 9) ]

theorem leader_completeness_succeedRun :
    ∃ v w, Lib.run (World.step (Gob.plain (RaftImage 3 Nat))) World.init commitRun = some v ∧
      Lib.run (World.step (Gob.plain (RaftImage 3 Nat))) v succeedRun = some w ∧
      (v.nodes 0).rf.commitIndex = 2 ∧ (w.nodes 1).rf.state = .leader ∧
      ∃ e, (v.nodes 0).rf.entryAt 2 = some e ∧ (w.nodes 1).rf.entryAt 2 = some e := by
  have hcheck : (Lib.run (World.step (Gob.plain (RaftImage 3 Nat))) World.init commitRun).any
      (fun v ↦ decide ((v.nodes 0).rf.commitIndex = 2 ∧ (v.nodes 0).rf.currentTerm = 1) &&
        (Lib.run (World.step (Gob.plain (RaftImage 3 Nat))) v succeedRun).any fun w ↦
          decide ((w.nodes 1).rf.state = .leader ∧ (w.nodes 1).rf.currentTerm = 2)) = true := by
    decide +kernel
  have hok : Lib.Along (World.step (Gob.plain (RaftImage 3 Nat))) Agreeing World.init
      (commitRun ++ succeedRun) := by
    decide +kernel
  obtain ⟨v, hv, hrest⟩ := Lib.exists_run_of_any hcheck
  obtain ⟨hk, hrest⟩ := Bool.and_eq_true_iff.mp hrest
  obtain ⟨hcommit, hold⟩ := of_decide_eq_true hk
  obtain ⟨w, hw, hlast⟩ := Lib.exists_run_of_any hrest
  obtain ⟨hlead, hnew⟩ := of_decide_eq_true hlast
  exact ⟨v, w, hv, hw, hcommit, hlead,
    leader_completeness hok hv hw hlead (by omega) (by decide) hcommit.ge⟩

/-! ## Leaders append only -/

/-- Between two states of a run in which a term has a leader, it is the same server, and it has
overwritten and dropped none of its entries. -/
theorem leader_append_only [DecidableEq C] [DecidableEq σ] {gob : Gob (RaftImage n C) σ}
    {v w : World n C σ} {pre post : List (Action n C σ)}
    (hok : Lib.Along (World.step gob) Agreeing World.init (pre ++ post))
    (hpre : Lib.run (World.step gob) World.init pre = some v)
    (hpost : Lib.run (World.step gob) v post = some w) {s t : Fin n}
    (hlead : (v.nodes s).rf.state = .leader) (hlead' : (w.nodes t).rf.state = .leader)
    (hterm : (v.nodes s).rf.currentTerm = (w.nodes t).rf.currentTerm) :
    s = t ∧ (v.nodes s).rf.log.tail <+: (w.nodes t).rf.log.tail := by
  obtain ⟨hokpre, hokpost⟩ := (Lib.along_append hpre).mp hok
  obtain ⟨g, hg⟩ := Mirrors.of_run hokpre hpre
  obtain ⟨g', hgrow, hg'⟩ := hg.run hokpost hpost
  constructor
  · -- the election of `s` is still in the trace
    have hold := (World.run_trace hpost).subset (hg.leader s hlead)
    have hnew := hg'.leader t hlead'
    rw [hterm] at hold
    exact hg'.toElectionInv.unique hold hnew
  · rw [← (hg.leads hlead).1, ← (hg'.leads hlead').1, ← hterm]
    exact hgrow.llog _

/-- Server 0 still leads after its second command. -/
theorem leader_append_only_startRun :
    let startRun : List (Action 3 Nat (RaftImage 3 Nat)) := [.start 0 (some 9)]
    ∃ v w, Lib.run (World.step (Gob.plain (RaftImage 3 Nat))) World.init commitRun = some v ∧
      Lib.run (World.step (Gob.plain (RaftImage 3 Nat))) v startRun = some w ∧
      (v.nodes 0).rf.log.tail <+: (w.nodes 0).rf.log.tail := by
  intro startRun
  have hcheck : (Lib.run (World.step (Gob.plain (RaftImage 3 Nat))) World.init commitRun).any
      (fun v ↦ decide ((v.nodes 0).rf.state = .leader ∧ (v.nodes 0).rf.currentTerm = 1) &&
        (Lib.run (World.step (Gob.plain (RaftImage 3 Nat))) v startRun).any fun w ↦
          decide ((w.nodes 0).rf.state = .leader ∧ (w.nodes 0).rf.currentTerm = 1)) = true := by
    decide +kernel
  have hok : Lib.Along (World.step (Gob.plain (RaftImage 3 Nat))) Agreeing World.init
      (commitRun ++ startRun) := by
    decide +kernel
  obtain ⟨v, hv, hrest⟩ := Lib.exists_run_of_any hcheck
  obtain ⟨hk, hrest⟩ := Bool.and_eq_true_iff.mp hrest
  obtain ⟨hlead, hold⟩ := of_decide_eq_true hk
  obtain ⟨w, hw, hlast⟩ := Lib.exists_run_of_any hrest
  obtain ⟨hlead', hnew⟩ := of_decide_eq_true hlast
  exact ⟨v, w, hv, hw, (leader_append_only hok hv hw hlead hlead' (hold.trans hnew.symm)).2⟩

end Lab6824
