import Lab6824.Raft.Leader
import Lab6824.Raft.Safety

/-!
# Commit — which entries a leader commits by counting

`handleAppendEntriesReply` compares the term of the reply, not that of the entry, with the current
term.  What it commits is the last entry of a request, so it is an entry of the leader's own term
exactly if the request ended with one.
-/

namespace Lab6824

variable {n : Nat} {C σ : Type} {gob : Gob (RaftImage n C) σ}

/-- The term of the last entry that a request carries, or of the previous one if it carries none. -/
def AppendEntriesArgs.lastTerm (args : AppendEntriesArgs n C) : Int :=
  (args.entries.getLast?.map Log.term).getD args.prevLogTerm

/-- A round ends its request with the last entry of the log. -/
theorem Raft.onRound_lastTerm {rf : Raft n C σ} {server : Fin n} {args : AppendEntriesArgs n C}
    (h : rf.onRound server = some (.append args)) :
    (rf.entryAt args.lastIndex).map Log.term = some args.lastTerm := by
  have hlast := onRound_lastIndex h
  obtain ⟨_, _, index, prev, _, hprev, hargs⟩ := onRound_append h
  have hlt := (List.getElem?_eq_some_iff.mp hprev).1
  have hat : rf.entryAt args.lastIndex = rf.log.getLast? := by
    rw [hlast, getLastLogIndex_eq, entryAt, realIndex, Int.add_sub_cancel,
      show (rf.log.length : Int) - 1 = (rf.log.length - 1 : Nat) by omega, logAt_natCast,
      List.getLast?_eq_getElem?]
  rw [hat, hargs, AppendEntriesArgs.lastTerm]
  dsimp only
  rw [List.getLast?_drop]
  split
  · rename_i hle
    rw [List.getLast?_eq_getElem?, show rf.log.length - 1 = index by omega, hprev]
    rfl
  · obtain ⟨e, he⟩ : ∃ e, rf.log.getLast? = some e := by
      rw [List.getLast?_eq_getElem?]
      exact ⟨_, List.getElem?_eq_getElem (by omega)⟩
    rw [he]
    rfl

/-- Where a leader stays leader of its term and compacts committed entries only, it keeps the
entries that are not committed. -/
theorem IndexStep.entryAt_term {w : World n C σ} {a : Action n C σ} {t : Fin n} {rf' : Raft n C σ}
    {T k x : Int} (h : IndexStep w a t rf') (hok : NoRival w a) (hcom : CompactsCommitted w a)
    (hlead : (w.nodes t).rf.Leads T) (hlead' : rf'.Leads T) (hk : rf'.commitIndex < k)
    (hx : (w.nodes t).rf.commitIndex < k → ((w.nodes t).rf.entryAt k).map Log.term = some x) :
    (rf'.entryAt k).map Log.term = some x := by
  cases h with
  | same _ hi | applied _ _ _ hi =>
      obtain ⟨hlog, hbase, _, hci, _⟩ := indices_eq.mp hi
      rw [hci] at hk
      rw [Raft.entryAt_congr hlog hbase]
      exact hx hk
  | committed env reply _ _ hdone _ hi =>
      obtain ⟨hlog, hbase, _, hci, _⟩ := indices_eq.mp hi
      rw [hci] at hk
      rw [Raft.entryAt_congr hlog hbase]
      exact hx (hdone.ahead.trans hk)
  | restarted ha hres =>
      -- a server that restarts is a follower
      have hrole := hlead'.1
      rw [hres.state] at hrole
      cases hrole
  | appended command ha _ _ hi =>
      obtain ⟨hlog, hbase, _, hci, _⟩ := indices_eq.mp hi
      rw [hci] at hk
      obtain ⟨e, he, hterm⟩ := Option.map_eq_some_iff.mp (hx hk)
      rw [Raft.entryAt_append hlog hbase he, Option.map_some, hterm]
  | merged env pli ha hdst henv hacc hterm hi =>
      -- a request of its own term does not reach a leader
      subst ha hdst
      exact absurd ⟨hlead.1, hlead.2.trans (hlead'.2.symm.trans hterm)⟩ hok
  | installed msg ha hch hvalid hnew hbase' _ hi =>
      obtain ⟨hlog, hbase, _, hci, _⟩ := indices_eq.mp hi
      rw [hci] at hk
      rw [Raft.entryAt_of_tail hbase' hbase _ hk]
      · exact hx (hnew.trans hk)
      · rw [hlog, List.tail_cons, Raft.keptAfter_eq_drop hbase']
  | compacted i data dummy rest ha hnew hdrop _ hi =>
      obtain ⟨hlog, hbase, _, hci, _⟩ := indices_eq.mp hi
      subst ha
      rw [hci] at hk
      rw [Raft.entryAt_of_tail hnew.le hbase _ ((hcom hnew).trans_lt hk)]
      · exact hx hk
      · rw [hlog, List.tail_cons, ← List.tail_drop, hdrop]
        rfl

/-- The last entry of a request of its term stands in the log of its leader as long as it is not
committed. -/
structure EntryInv (gob : Gob (RaftImage n C) σ) (w : World n C σ) : Prop extends
    LeaderInv gob w where
  entries : ∀ env ∈ w.appendReqs, (w.nodes env.args.leaderId).rf.Leads env.args.term →
    (w.nodes env.args.leaderId).rf.commitIndex < env.args.lastIndex →
      ((w.nodes env.args.leaderId).rf.entryAt env.args.lastIndex).map Log.term =
        some env.args.lastTerm

namespace EntryInv

theorem init : EntryInv gob (World.init : World n C σ) where
  toLeaderInv := LeaderInv.init
  entries := by
    intro env henv
    cases henv

theorem step {w w' : World n C σ} {a : Action n C σ} (h : EntryInv gob w) (hok : NoRival w a)
    (hcom : CompactsCommitted w a) (hstep : Step gob w a w') : EntryInv gob w' where
  toLeaderInv := h.toLeaderInv.step hok hstep
  entries := by
    intro env henv hlead hk
    rcases step_appendReqs hstep henv with hold | ⟨s, ha, hne, hround⟩
    · have hlead₀ := LeaderInv.leads_before h.toPollInv hstep hold hlead
      have hindex := step_indices hstep h.durable env.args.leaderId
      exact hindex.entryAt_term hok hcom hlead₀ hlead hk (h.entries env hold hlead₀)
    · obtain ⟨hid, _, hrf⟩ := LeaderInv.of_new_request h.toPollInv hstep ha hround
      rw [hid, hrf]
      exact Raft.onRound_lastTerm hround

end EntryInv

/-- The leader commits an entry of its own term that a majority is known to have. -/
def CommitsByRule (rf : Raft n C σ) : Prop :=
  (rf.entryAt rf.commitIndex).map Log.term = some rf.currentTerm ∧
    rf.matchCount rf.commitIndex ≥ n / 2 + 1

/-- In a run in which no `AppendEntries` of its own term reaches a leader and only committed entries
are compacted, a reply that raises `commitIndex` does so by the rule exactly if the request it
answers ended with an entry of its own term. -/
theorem commits_by_rule_iff_ends_in_own_term [DecidableEq C] [DecidableEq σ]
    {gob : Gob (RaftImage n C) σ} {w w' : World n C σ} {as : List (Action n C σ)}
    (hok : Lib.Along (World.step gob) (fun v a ↦ NoRival v a ∧ CompactsCommitted v a)
      World.init as)
    (hrun : Lib.run (World.step gob) World.init as = some w) {s : Fin n}
    {env : Envelope n (AppendEntriesArgs n C)} {reply : AppendEntriesReply}
    (hstep : w.step gob (.appendReply s env reply) = some w')
    (hraise : (w.nodes s).rf.commitIndex < (w'.nodes s).rf.commitIndex) :
    CommitsByRule (w'.nodes s).rf ↔ env.args.lastTerm = env.args.term := by
  have hinv : EntryInv gob w :=
    Lib.run_invariant (fun _ _ _ h hok hstep ↦ h.step hok.1 hok.2 (World.step_inv hstep))
      EntryInv.init hok hrun
  cases World.step_inv hstep with
  | appendReply _ _ _ hnd hcall hrep hv hcalls =>
      subst hnd
      dsimp only at hraise ⊢
      rw [Function.update_self] at hraise ⊢
      dsimp only at hraise ⊢
      obtain ⟨ni, mi, ci, ch, hfields⟩ := Raft.handleAppendEntriesReply_cases hv
      rcases appendReply_commit hv with hsame | ⟨hdone, hci, hct, _, hcount⟩
      · exact absurd hsame hraise.ne'
      · obtain ⟨hreq, hid⟩ := hinv.calls s env hcall
        have hentry := hinv.entries env hreq
        rw [hid] at hentry
        have hlast := hentry ⟨hdone.leader, hdone.sent.symm⟩ hdone.ahead
        -- the reply leaves the log alone
        rw [hfields] at hci hct hcount ⊢
        dsimp only at hci hct
        have hat := Raft.entryAt_congr (Raft.stepDown_log gob (w.nodes s).rf reply.term)
          (Raft.stepDown_lastIncludedIndex gob (w.nodes s).rf reply.term) env.args.lastIndex
        subst hci
        unfold CommitsByRule
        dsimp only
        rw [hct]
        refine (and_iff_left hcount).trans ?_
        change (((w.nodes s).rf.stepDown gob reply.term).entryAt env.args.lastIndex).map _ = _ ↔ _
        rw [hat, hlast, ← hdone.sent, Option.some.injEq]

/-- In `overwriteRun` server 0, as leader of term 3, commits its entry of term 1 once server 2 has
it. -/
theorem commits_entry_of_older_term :
    let append : Envelope 3 (AppendEntriesArgs 3 Nat) := ⟨6, 2, ⟨3, 0, 0, 0, [⟨some 10, 1⟩], 0⟩⟩
    ∃ w w', Lib.run (World.step (Gob.plain (RaftImage 3 Nat))) World.init (overwriteRun.take 25) =
        some w ∧
      w.step (Gob.plain (RaftImage 3 Nat)) (.appendReply 0 append { term := 3, success := true }) =
        some w' ∧
      (w.nodes 0).rf.commitIndex = 0 ∧ (w'.nodes 0).rf.commitIndex = 1 ∧
      (w'.nodes 0).rf.currentTerm = 3 ∧ (w'.nodes 0).rf.entryAt 1 = some ⟨some 10, 1⟩ ∧
      ¬ CommitsByRule (w'.nodes 0).rf := by
  intro append
  have hcheck : (Lib.run (World.step (Gob.plain (RaftImage 3 Nat))) World.init
      (overwriteRun.take 25)).any (fun w ↦ (w.step (Gob.plain (RaftImage 3 Nat))
        (.appendReply 0 append { term := 3, success := true })).any fun w' ↦
          decide ((w.nodes 0).rf.commitIndex = 0 ∧ (w'.nodes 0).rf.commitIndex = 1 ∧
            (w'.nodes 0).rf.currentTerm = 3 ∧
            (w'.nodes 0).rf.entryAt 1 = some ⟨some 10, 1⟩)) = true := by
    decide +kernel
  obtain ⟨w, hrun, hw⟩ := Lib.exists_run_of_any hcheck
  obtain ⟨w', hstep, hw'⟩ := (Option.any_eq_true _ _).mp hw
  obtain ⟨hbefore, hafter, hterm, hentry⟩ := of_decide_eq_true hw'
  refine ⟨w, w', hrun, hstep, hbefore, hafter, hterm, hentry, fun hrule ↦ ?_⟩
  have hown := hrule.1
  rw [hafter, hentry, hterm] at hown
  exact absurd hown (by decide)

/-- In `replicateRun` the request carries two entries of the leader's own term. -/
theorem commits_by_rule_after_replicateRun :
    let append : Envelope 3 (AppendEntriesArgs 3 Nat) :=
      ⟨1, 1, ⟨1, 0, 0, 0, [⟨some 7, 1⟩, ⟨some 8, 1⟩], 0⟩⟩
    ∃ w w', Lib.run (World.step (Gob.plain (RaftImage 3 Nat))) World.init replicateRun = some w ∧
      w.step (Gob.plain (RaftImage 3 Nat)) (.appendReply 0 append { term := 1, success := true }) =
        some w' ∧
      (w'.nodes 0).rf.commitIndex = 2 ∧ CommitsByRule (w'.nodes 0).rf := by
  intro append
  have hcheck : (Lib.run (World.step (Gob.plain (RaftImage 3 Nat))) World.init replicateRun).any
      (fun w ↦ (w.step (Gob.plain (RaftImage 3 Nat))
        (.appendReply 0 append { term := 1, success := true })).any fun w' ↦
          decide ((w.nodes 0).rf.commitIndex = 0 ∧ (w'.nodes 0).rf.commitIndex = 2)) = true := by
    decide +kernel
  have hok : Lib.Along (World.step (Gob.plain (RaftImage 3 Nat)))
      (fun v a ↦ NoRival v a ∧ CompactsCommitted v a) World.init replicateRun := by
    decide +kernel
  obtain ⟨w, hrun, hw⟩ := Lib.exists_run_of_any hcheck
  obtain ⟨w', hstep, hw'⟩ := (Option.any_eq_true _ _).mp hw
  obtain ⟨hbefore, hafter⟩ := of_decide_eq_true hw'
  have hraise : (w.nodes 0).rf.commitIndex < (w'.nodes 0).rf.commitIndex := by omega
  exact ⟨w, w', hrun, hstep, hafter,
    (commits_by_rule_iff_ends_in_own_term hok hrun hstep hraise).mpr rfl⟩

end Lab6824
