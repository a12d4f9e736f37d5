import Lab6824.Raft.Election
import Lab6824.Raft.Indices

/-!
# Leader — what a leader has sent in its term

While a server leads a term, no step but its own `Start` moves the end of its log, unless an
`AppendEntries` of that same term reaches it.  Where none does, a leader still has everything that its
requests of the term carry.
-/

namespace Lab6824

variable {n : Nat} {C σ : Type} {gob : Gob (RaftImage n C) σ}

/-- No `AppendEntries` of its own term reaches a leader. -/
def NoRival (w : World n C σ) : Action n C σ → Prop
  | .appendEntries env =>
    ¬ ((w.nodes env.dst).rf.state = .leader ∧ (w.nodes env.dst).rf.currentTerm = env.args.term)
  | _ => True

instance (w : World n C σ) (a : Action n C σ) : Decidable (NoRival w a) := by
  unfold NoRival
  induction a using Action.casesOn <;> infer_instance

/-- `Snapshot` is called for committed entries only. -/
def CompactsCommitted (w : World n C σ) : Action n C σ → Prop
  | .snapshot s i _ => (w.nodes s).rf.lastIncludedIndex < i → i ≤ (w.nodes s).rf.commitIndex
  | _ => True

instance (w : World n C σ) (a : Action n C σ) : Decidable (CompactsCommitted w a) := by
  unfold CompactsCommitted
  induction a using Action.casesOn <;> infer_instance

/-- The server leads the term. -/
def Raft.Leads (rf : Raft n C σ) (term : Int) : Prop :=
  rf.state = .leader ∧ rf.currentTerm = term

instance (rf : Raft n C σ) (term : Int) : Decidable (rf.Leads term) := by
  unfold Raft.Leads
  infer_instance

/-- A server that leads a term after a step has led it before, or has just been elected. -/
theorem step_leads {w w' : World n C σ} {a : Action n C σ} (h : BallotInv gob w)
    (hstep : Step gob w a w') {t : Fin n} {T : Int} (hlead : (w'.nodes t).rf.Leads T) :
    (w.nodes t).rf.Leads T ∨
      (w.nodes t).rf.state = .candidate ∧ (w.nodes t).rf.currentTerm = T ∧
        ∃ k env reply, a = .voteReply t k env reply := by
  obtain ⟨hstate, hT⟩ := hlead
  cases step_vote hstep h.durable h.me t with
  | same hb htr =>
      obtain ⟨hterm, _, hrole⟩ := ballot_eq.mp hb
      exact Or.inl ⟨hrole ▸ hstate, hterm ▸ hT⟩
  | granted ha hdst hmem hle hfree hrole hb htr =>
      obtain ⟨hterm, _, hrole'⟩ := ballot_eq.mp hb
      rcases hrole with rfl | ⟨heq, rfl⟩
      · rw [hrole'] at hstate
        cases hstate
      · exact Or.inl ⟨hrole' ▸ hstate, heq.trans (hterm.symm.trans hT)⟩
  | elected ha hrole hb htr => exact Or.inr ⟨hrole, (ballot_eq.mp hb).1 ▸ hT, _, _, _, ha⟩
  | retired _ hb | restarted _ hb | campaigned _ hb | reset _ _ _ _ _ hb =>
      rw [(ballot_eq.mp hb).2.2] at hstate
      cases hstate

/-! ## What a leader keeps about its peers -/

def Raft.peers (rf : Raft n C σ) : (Fin n → Int) × (Fin n → Int) :=
  (rf.nextIndex, rf.matchIndex)

/-- What step `a` does to the two arrays of server `t`, which it leaves with `rf'`: they change by
an election and by replies only. -/
inductive PeerStep (gob : Gob (RaftImage n C) σ) (w : World n C σ) (a : Action n C σ) (t : Fin n)
    (rf' : Raft n C σ) : Prop where
  | same (hrole : rf'.state = .leader → (w.nodes t).rf.state = .leader)
      (h : rf'.peers = (w.nodes t).rf.peers)
  | retired (h : rf'.state ≠ .leader)
  | elected (h : rf' = (w.nodes t).rf.toLeader)
  | replied (env : Envelope n (AppendEntriesArgs n C)) (reply : AppendEntriesReply)
      (hcall : env ∈ (w.nodes t).appendCalls) (hrep : (env, reply) ∈ w.appendReps)
      (h : (w.nodes t).rf.handleAppendEntriesReply gob env.args
        { reply with sendTerm := env.args.term } env.dst = some rf')
  | counted (env : Envelope n (InstallSnapshotArgs n σ)) (reply : InstallSnapshotReply)
      (ha : a = .snapshotReply t env reply)
      (h : rf' = (w.nodes t).rf.handleSnapshotReply gob env.args.lastIncludedIndex reply env.dst)

theorem PeerStep.update {w : World n C σ} {a : Action n C σ} {s : Fin n} {nd : Node n C σ}
    (h : PeerStep gob w a s nd.rf) (t : Fin n) :
    PeerStep gob w a t (Function.update w.nodes s nd t).rf := by
  refine (Function.forall_update_iff w.nodes fun t nd ↦ PeerStep gob w a t nd.rf).mpr ⟨h, ?_⟩ t
  intro t _
  exact .same id rfl

theorem stepDown_peers (gob : Gob (RaftImage n C) σ) (rf : Raft n C σ) (term : Int) :
    ((rf.stepDown gob term).state = .leader → rf.state = .leader) ∧
      (rf.stepDown gob term).peers = rf.peers := by
  rcases Raft.stepDown_cases gob rf term with ⟨_, he⟩ | ⟨_, he⟩
  · rw [he]
    exact ⟨Role.noConfusion, rfl⟩
  · rw [he]
    exact ⟨id, rfl⟩

theorem appendStepDown_peers (gob : Gob (RaftImage n C) σ) (rf : Raft n C σ) (term : Int) :
    ((rf.appendStepDown gob term).state = .leader → rf.state = .leader) ∧
      (rf.appendStepDown gob term).peers = rf.peers := by
  rcases Raft.appendStepDown_cases gob rf term with ⟨_, he⟩ | ⟨_, _, he⟩
  · rw [he]
    exact ⟨Role.noConfusion, rfl⟩
  · rw [he]
    exact ⟨id, rfl⟩

theorem step_peers {w w' : World n C σ} {a : Action n C σ} (hstep : Step gob w a w')
    (hdur : ∀ s, Durable gob (w.nodes s).rf) (t : Fin n) : PeerStep gob w a t (w'.nodes t).rf := by
  cases hstep with
  | timeoutLeader | roundIdle => exact .same id rfl
  | campaign s hnd | voteRetire s _ _ _ hnd =>
      subst hnd
      exact .update (by exact .retired Role.noConfusion) t
  | requestVote env hnd henv hv =>
      subst hnd
      obtain ⟨hrole, hsame⟩ := stepDown_peers gob (w.nodes env.dst).rf env.args.term
      refine .update ?_ t
      rcases Raft.requestVote_cases hv with ⟨_, rfl⟩ | ⟨_, _, _, _, rfl⟩
      · exact .same hrole hsame
      · exact .same hrole hsame
  | voteLead s k env reply hnd =>
      subst hnd
      exact .update (by exact .elected rfl) t
  | appendEntries env hnd henv hv =>
      subst hnd
      obtain ⟨hrole, hsame⟩ := appendStepDown_peers gob (w.nodes env.dst).rf env.args.term
      refine .update ?_ t
      rcases (Raft.appendEntries_cases hv).2 with ⟨_, rfl⟩ | ⟨_, _, p, _, _, _, _, rfl⟩
      · exact .same hrole hsame
      · refine .same ?_ ?_
        · rw [Raft.mergeEntries_state]
          exact hrole
        · rw [Raft.peers, Raft.mergeEntries_nextIndex, Raft.mergeEntries_matchIndex]
          exact hsame
  | appendReply s env reply hnd hcall hrep hv =>
      subst hnd
      exact .update (by exact .replied env reply hcall hrep hv) t
  | installSnapshot env hnd henv hv =>
      subst hnd
      have hrf := Raft.installSnapshot_rf gob (w.nodes env.dst).rf env.args
      rw [hv] at hrf
      dsimp only at hrf
      obtain ⟨hrole, hsame⟩ := stepDown_peers gob (w.nodes env.dst).rf env.args.term
      rw [← hrf] at hrole hsame
      exact .update (by exact .same hrole hsame) t
  | snapshotReply s env reply hnd =>
      subst hnd
      exact .update (by exact .counted env reply rfl rfl) t
  | start s command hnd =>
      subst hnd
      refine .update ?_ t
      dsimp only
      unfold Raft.start
      split
      · exact .same id rfl
      · exact .same id rfl
  | updateApplied s hnd hawake hv =>
      subst hnd
      rw [Raft.updateApplied_rf hv]
      exact .update (by exact .same id rfl) t
  | condInstallSnapshot s hnd hch hvalid hv =>
      subst hnd
      refine .update ?_ t
      rcases Raft.condInstallSnapshot_cases hv with ⟨_, _, rfl⟩ | ⟨_, _, rest, rf₁, rfl, rfl⟩
      · exact .same id rfl
      · exact .same id rfl
  | snapshot s index data hnd hv =>
      subst hnd
      refine .update ?_ t
      rcases Raft.snapshot_cases hv with ⟨_, _, rfl⟩ | ⟨_, _, d, rest, rf₁, _, _, rfl, rfl⟩
      · exact .same id rfl
      · exact .same id rfl
  | crash s hnd hmake =>
      subst hnd
      obtain ⟨rf', hmake', hres, _⟩ := (hdur s).make s
      rw [hmake, Option.some.injEq] at hmake'
      subst hmake'
      refine .update ?_ t
      refine .retired ?_
      rw [hres.state]
      exact Role.noConfusion
  -- the remaining steps leave the arrays alone
  | electSkip _ _ hnd | electSend _ _ hnd | voteIgnore _ _ _ _ hnd | voteCount _ _ _ _ hnd
  | roundSnapshot _ _ hnd | roundAppend _ _ hnd | sendCommand _ hnd | sendSnapshot _ _ hnd
  | serviceDone _ hnd =>
      subst hnd
      exact .update (by exact .same id rfl) t
  | wakeApplier s hnd hrf =>
      subst hnd hrf
      exact .update (by exact .same id rfl) t

/-! ## The end of the log -/

/-- A leader that stays leader of its term does not lose the end of its log. -/
theorem IndexStep.last_le {w : World n C σ} {a : Action n C σ} {t : Fin n} {rf' : Raft n C σ} {T : Int}
    (h : IndexStep w a t rf') (hok : NoRival w a) (hlead : (w.nodes t).rf.Leads T)
    (hlead' : rf'.Leads T) : (w.nodes t).rf.getLastLogIndex ≤ rf'.getLastLogIndex := by
  rw [Raft.getLastLogIndex_eq, Raft.getLastLogIndex_eq]
  cases h with
  | same _ hi | committed _ _ _ _ _ _ hi | applied _ _ _ hi =>
      obtain ⟨hlog, hbase, _⟩ := indices_eq.mp hi
      rw [hlog, hbase]
  | restarted ha hres =>
      have hrole := hlead'.1
      rw [hres.state] at hrole
      cases hrole
  | appended command ha _ _ hi =>
      obtain ⟨hlog, hbase, _⟩ := indices_eq.mp hi
      rw [hlog, hbase, List.length_append, List.length_singleton]
      omega
  | merged env pli ha hdst henv hacc hterm hi =>
      subst ha hdst
      -- the request would be one of the leader's own term
      exact absurd ⟨hlead.1, hlead.2.trans (hlead'.2.symm.trans hterm)⟩ hok
  | installed msg ha hch hvalid hnew hbase' _ hi =>
      obtain ⟨hlog, hbase, _⟩ := indices_eq.mp hi
      rw [hlog, hbase, List.length_cons, Raft.keptAfter_eq_drop hbase', List.length_drop]
      unfold Raft.realIndex
      omega
  | compacted i data dummy rest ha hnew hdrop _ hi =>
      obtain ⟨hlog, hbase, _⟩ := indices_eq.mp hi
      have hlen := congrArg List.length hdrop
      rw [List.length_drop, List.length_cons] at hlen
      rw [hlog, hbase, List.length_cons]
      unfold Raft.realIndex at hlen
      omega

/-! ## What holds in every run without rivals -/

/-- A round sends everything up to the end of the log. -/
theorem Raft.onRound_lastIndex {rf : Raft n C σ} {server : Fin n} {args : AppendEntriesArgs n C}
    (h : rf.onRound server = some (.append args)) : args.lastIndex = rf.getLastLogIndex := by
  obtain ⟨_, _, index, prev, hindex, hprev, hargs⟩ := onRound_append h
  have hlt := (List.getElem?_eq_some_iff.mp hprev).1
  rw [hargs, AppendEntriesArgs.lastIndex, getLastLogIndex_eq]
  dsimp only
  rw [List.length_drop]
  unfold realIndex at hindex
  omega

/-- A leader has what its requests of the term carry, and knows the calls it waits for. -/
structure LeaderInv (gob : Gob (RaftImage n C) σ) (w : World n C σ) : Prop extends
    PollInv gob w where
  requests : ∀ env ∈ w.appendReqs, (w.nodes env.args.leaderId).rf.Leads env.args.term →
    env.args.lastIndex ≤ (w.nodes env.args.leaderId).rf.getLastLogIndex
  calls : ∀ s, ∀ env ∈ (w.nodes s).appendCalls, env ∈ w.appendReqs ∧ env.args.leaderId = s

namespace LeaderInv

theorem init : LeaderInv gob (World.init : World n C σ) where
  toPollInv := PollInv.init
  requests := by
    intro env henv
    cases henv
  calls := by
    intro s env henv
    cases henv

variable {w w' : World n C σ} {a : Action n C σ}

/-- A server that leads the term of one of its requests after a step has led it before: it cannot
have been elected in a term in which it had sent requests. -/
theorem leads_before (h : PollInv gob w) (hstep : Step gob w a w')
    {env : Envelope n (AppendEntriesArgs n C)} (henv : env ∈ w.appendReqs)
    (hlead : (w'.nodes env.args.leaderId).rf.Leads env.args.term) :
    (w.nodes env.args.leaderId).rf.Leads env.args.term := by
  rcases step_leads h.toBallotInv hstep hlead with hold | ⟨hcand, hterm, _⟩
  · exact hold
  · exact absurd hcand ((h.settled _ _ (h.appends env henv)).2 hterm)

/-- A new request is of a server that leads its term, and that the step leaves as it was. -/
theorem of_new_request (h : PollInv gob w) (hstep : Step gob w a w') {s : Fin n}
    {env : Envelope n (AppendEntriesArgs n C)} (ha : a = .onRound s env.dst)
    (hround : (w.nodes s).rf.onRound env.dst = some (.append env.args)) :
    env.args.leaderId = s ∧ (w.nodes s).rf.Leads env.args.term ∧
      (w'.nodes s).rf = (w.nodes s).rf := by
  obtain ⟨hlead, _, _, _, _, _, hargs⟩ := Raft.onRound_append hround
  refine ⟨?_, ⟨hlead, ?_⟩, ?_⟩
  · rw [hargs]
    exact h.me s
  · rw [hargs]
  · subst ha
    cases hstep with
    | roundIdle => rfl
    | roundSnapshot _ _ hnd | roundAppend _ _ hnd =>
        subst hnd
        dsimp only
        rw [Function.update_self]

theorem step (h : LeaderInv gob w) (hok : NoRival w a) (hstep : Step gob w a w') :
    LeaderInv gob w' where
  toPollInv := h.toPollInv.step hstep
  requests := by
    intro env henv hlead
    rcases step_appendReqs hstep henv with hold | ⟨s, ha, hne, hround⟩
    · have hlead₀ := leads_before h.toPollInv hstep hold hlead
      have hindex := step_indices hstep h.durable env.args.leaderId
      exact (h.requests env hold hlead₀).trans (hindex.last_le hok hlead₀ hlead)
    · obtain ⟨hid, _, hrf⟩ := of_new_request h.toPollInv hstep ha hround
      rw [hid, hrf, Raft.onRound_lastIndex hround]
  calls := by
    intro s env henv
    rcases step_appendCalls hstep henv with hold | ⟨ha, hreq, hround⟩
    · obtain ⟨hreq, hid⟩ := h.calls s env hold
      exact ⟨World.appendReqs_mono hstep hreq, hid⟩
    · exact ⟨hreq, (of_new_request h.toPollInv hstep ha hround).1⟩

end LeaderInv

end Lab6824
