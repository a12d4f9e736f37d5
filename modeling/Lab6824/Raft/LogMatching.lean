import Lab6824.Raft.Refinement
import Mathlib.Data.List.Infix

/-!
# LogMatching — an index and a term determine the log up to them

In a run without compaction in which no term ever has two leaders, the cluster simulates the
replicated logs of `Lib.Replication`, whatever the voters were: the quorums do not matter here.
-/

namespace Lab6824

variable {n : Nat} {C σ : Type} {gob : Gob (RaftImage n C) σ}

open Lib (Replica Move lastTerm UpToDate LogInv Matches)

section Leaders

variable [DecidableEq C] [DecidableEq σ]

/-- No two servers are leaders of one term in any two states that the run passes through. -/
def OneLeaderPerTerm (gob : Gob (RaftImage n C) σ) (as : List (Action n C σ)) : Prop :=
  ∀ pre ∈ as.inits, ∀ pre' ∈ as.inits,
    ∀ v ∈ Lib.run (World.step gob) World.init pre,
      ∀ v' ∈ Lib.run (World.step gob) World.init pre',
        ∀ s s', (v.nodes s).rf.state = .leader → (v'.nodes s').rf.state = .leader →
          (v.nodes s).rf.currentTerm = (v'.nodes s').rf.currentTerm → s = s'

instance (as : List (Action n C σ)) : Decidable (OneLeaderPerTerm gob as) := by
  unfold OneLeaderPerTerm
  infer_instance

/-- A server that has been elected was leader in a state that the run passed through. -/
theorem exists_leader_of_elected {as : List (Action n C σ)} {w : World n C σ}
    (hrun : Lib.run (World.step gob) World.init as = some w) {s : Fin n} {T : Int}
    (hmem : .elected s T ∈ w.trace) :
    ∃ pre ∈ as.inits, ∃ v, Lib.run (World.step gob) World.init pre = some v ∧
      (v.nodes s).rf.state = .leader ∧ (v.nodes s).rf.currentTerm = T := by
  -- the election is the last step of a prefix of the run
  induction as using List.reverseRecOn generalizing w with
  | nil =>
      rw [Lib.run_nil, Option.some.injEq] at hrun
      subst hrun
      cases hmem
  | append_singleton as a ih =>
      obtain ⟨v, hv, hstep⟩ := Lib.run_concat.mp hrun
      rcases step_elected (World.step_inv hstep) hmem with hold | ⟨hT, hlead, _⟩
      · obtain ⟨pre, hpre, hrest⟩ := ih hv hold
        refine ⟨pre, ?_, hrest⟩
        exact (List.mem_inits _ _).mpr (((List.mem_inits _ _).mp hpre).trans (List.prefix_append _ _))
      · refine ⟨as ++ [a], (List.mem_inits _ _).mpr (List.prefix_refl _), w, hrun, ?_, ?_⟩
        · rw [hlead]
          rfl
        · rw [hlead, hT]
          rfl

theorem OneLeaderPerTerm.elected_unique {as : List (Action n C σ)} {w : World n C σ}
    (h : OneLeaderPerTerm gob as) (hrun : Lib.run (World.step gob) World.init as = some w)
    {s s' : Fin n} {T : Int} (hs : .elected s T ∈ w.trace) (hs' : .elected s' T ∈ w.trace) :
    s = s' := by
  obtain ⟨pre, hpre, v, hv, hlead, hterm⟩ := exists_leader_of_elected hrun hs
  obtain ⟨pre', hpre', v', hv', hlead', hterm'⟩ := exists_leader_of_elected hrun hs'
  exact h pre hpre pre' hpre' v hv v' hv' s s' hlead hlead' (hterm.trans hterm'.symm)

/-- The simulation over a whole run.  Any set of servers may elect a leader. -/
theorem exists_sim {as : List (Action n C σ)} {w : World n C σ}
    (hflat : Lib.Along (World.step gob) (fun _ a ↦ NoCompaction a) World.init as)
    (hrun : Lib.run (World.step gob) World.init as = some w)
    (huniq : ∀ z z' T, .elected z T ∈ w.trace → .elected z' T ∈ w.trace → z = z') :
    FlatInv gob w ∧ ∃ g, LogInv g ∧ Sim w g := by
  have hinv : (FlatInv gob w ∧ PollInv gob w) ∧
      ((∀ z z' T, .elected z T ∈ w.trace → .elected z' T ∈ w.trace → z = z') →
        ∃ g, LogInv g ∧ Sim w g) := by
    refine Lib.run_invariant (I := fun w ↦ (FlatInv gob w ∧ PollInv gob w) ∧
      ((∀ z z' T, .elected z T ∈ w.trace → .elected z' T ∈ w.trace → z = z') →
        ∃ g, LogInv g ∧ Sim w g)) ?_ ⟨⟨FlatInv.init, PollInv.init⟩, fun _ ↦ ?_⟩ hflat hrun
    · rintro v a v' ⟨⟨hf, hp⟩, hsim⟩ hok hstep
      have hstep := World.step_inv hstep
      have hsub := (World.step_trace hstep).subset
      refine ⟨⟨hf.step hok hstep, hp.step hstep⟩, fun hu ↦ ?_⟩
      obtain ⟨g, hI, hg⟩ := hsim fun z z' T hz hz' ↦ hu z z' T (hsub hz) (hsub hz')
      have hnext : ∃ g', Relation.ReflTransGen (Move fun Q ↦ Q = ∅) g g' ∧ Sim v' g' :=
        hg.step hI hf hp hok hstep hu fun _ _ _ _ _ _ _ _ ↦ ⟨∅, rfl, by simp⟩
      obtain ⟨g', hm, hg'⟩ := hnext
      exact ⟨g', hI.moves hm, hg'⟩
    · exact ⟨_, LogInv.start, Sim.init⟩
  exact ⟨hinv.1.1, hinv.2 huniq⟩

end Leaders

/-- In a run without compaction in which no term has two leaders: two logs that have an entry of the
same term at an index are equal up to it, and an entry that is on its way in an `AppendEntries` request
has the command that any server has at its index with its term. -/
theorem log_matching [DecidableEq C] [DecidableEq σ] {gob : Gob (RaftImage n C) σ}
    {w : World n C σ} {as : List (Action n C σ)}
    (hflat : Lib.Along (World.step gob) (fun _ a ↦ NoCompaction a) World.init as)
    (hone : OneLeaderPerTerm gob as)
    (hrun : Lib.run (World.step gob) World.init as = some w) :
    (∀ s s' i e e', (w.nodes s).rf.entryAt i = some e → (w.nodes s').rf.entryAt i = some e' →
      e.term = e'.term → ∀ j, 1 ≤ j → j ≤ i →
        ∃ e₀, (w.nodes s).rf.entryAt j = some e₀ ∧ (w.nodes s').rf.entryAt j = some e₀) ∧
    (∀ env ∈ w.appendReqs, ∀ (k : Nat) (e : Log C), env.args.entries[k]? = some e →
      ∀ s e', (w.nodes s).rf.entryAt (env.args.prevLogIndex + 1 + k) = some e' →
        e'.term = e.term → e'.command = e.command) := by
  obtain ⟨hf, g, hI, hg⟩ := exists_sim hflat hrun fun _ _ _ ↦ hone.elected_unique hrun
  constructor
  · intro s s' i e e' he he' hterm j hj hji
    -- indices of entries start at `1`
    obtain ⟨k, rfl⟩ : ∃ k : Nat, i = k + 1 := ⟨(i - 1).toNat, by omega⟩
    obtain ⟨m, rfl⟩ : ∃ m : Nat, j = m + 1 := ⟨(j - 1).toNat, by omega⟩
    rw [hf.entryAt] at he he'
    have htake := (hg.log_matches hI s).take_eq (hg.log_matches hI s') he he' hterm
    have hlt : m < (w.nodes s).rf.log.tail.length := by
      have hk := (List.getElem?_eq_some_iff.mp he).1
      omega
    refine ⟨(w.nodes s).rf.log.tail[m], ?_, ?_⟩
    · rw [hf.entryAt, List.getElem?_eq_getElem hlt]
    · rw [hf.entryAt, ← List.getElem?_take_of_lt (show m < k + 1 by omega), ← htake,
        List.getElem?_take_of_lt (by omega), List.getElem?_eq_getElem hlt]
  · intro env henv k e he s e' he' hterm
    obtain ⟨L, p, hc⟩ := hg.sent env henv
    rw [hc.entries, List.getElem?_drop] at he
    rw [hc.prevLogIndex, show ((p : Int) + 1 + k) = ((p + k : Nat) : Int) + 1 by omega,
      hf.entryAt] at he'
    have htake := (hg.log_matches hI s).take_eq
      ((hI.llog_matches _).of_isPrefix hc.leader) he' he hterm
    have hsame : some e' = some e := by
      rw [← he', ← he, ← List.getElem?_take_of_lt (Nat.lt_succ_self (p + k)), htake,
        List.getElem?_take_of_lt (Nat.lt_succ_self (p + k))]
    rw [Option.some.inj hsame]

/-- Server 0 of three is elected by server 1, accepts two commands and sends them to server 1, which
stores them. -/
def replicateRun : List (Action 3 Nat (RaftImage 3 Nat)) :=
  let vote : Envelope 3 (RequestVoteArgs 3) := ⟨0, 1, ⟨1, 0, 0, 0⟩⟩
  let entries : List (Log Nat) := [{ command := some 7, term := 1 }, { command := some 8, term := 1 }]
  [ .electTimeout 0, .electRound 0 0, .electRound 0 0, .requestVote vote,
    .voteReply 0 0 vote { term := 1, voteGranted := true },
    .start 0 (some 7), .start 0 (some 8), .onRound 0 1,
    .appendEntries ⟨1, 1, ⟨1, 0, 0, 0, entries, 0⟩⟩ ]

theorem log_matching_replicateRun :
    ∃ w, Lib.run (World.step (Gob.plain (RaftImage 3 Nat))) World.init replicateRun = some w ∧
      (∃ env ∈ w.appendReqs, env.args.entries.length = 2) ∧
      ∀ j, 1 ≤ j → j ≤ 2 →
        ∃ e₀, (w.nodes 0).rf.entryAt j = some e₀ ∧ (w.nodes 1).rf.entryAt j = some e₀ := by
  have hcheck : (Lib.run (World.step (Gob.plain (RaftImage 3 Nat))) World.init replicateRun).any
      (fun w ↦ decide ((∃ env ∈ w.appendReqs, env.args.entries.length = 2) ∧
        (w.nodes 0).rf.entryAt 2 = some { command := some 8, term := 1 } ∧
        (w.nodes 1).rf.entryAt 2 = some { command := some 8, term := 1 })) = true := by
    decide +kernel
  have hflat : Lib.Along (World.step (Gob.plain (RaftImage 3 Nat))) (fun _ a ↦ NoCompaction a)
      World.init replicateRun := by
    decide +kernel
  have hone : OneLeaderPerTerm (Gob.plain (RaftImage 3 Nat)) replicateRun := by
    decide +kernel
  obtain ⟨w, hrun, hw⟩ := Lib.exists_run_of_any hcheck
  obtain ⟨hsent, h₀, h₁⟩ := of_decide_eq_true hw
  exact ⟨w, hrun, hsent, (log_matching hflat hone hrun).1 0 1 2 _ _ h₀ h₁ rfl⟩

end Lab6824
