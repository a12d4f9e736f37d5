import Lab6824.Raft.Leader

/-!
# Applier — what `updateApplied` reads

`updateApplied` sets `lastApplied` to `commitIndex`, whatever it was before.  A restart puts
`commitIndex` back to 0 and `lastApplied` to the boundary of the snapshot; so a request that commits
less than the snapshot covers takes `lastApplied` back behind the boundary.  Where no request does,
the applier reads only entries that the log has.
-/

namespace Lab6824

variable {n : Nat} {C σ : Type} {gob : Gob (RaftImage n C) σ}

/-! ## The token of `commitChan` -/

/-- `updateApplied` is going to run, now or once it has sent what it has. -/
def Node.Signalled (nd : Node n C σ) : Prop :=
  nd.rf.commitChan = true ∨ nd.applierAwake = true

namespace Raft

theorem stepDown_commitChan (gob : Gob (RaftImage n C) σ) (rf : Raft n C σ) (term : Int) :
    (rf.stepDown gob term).commitChan = rf.commitChan := by
  unfold stepDown
  split <;> rfl

theorem appendStepDown_commitChan (gob : Gob (RaftImage n C) σ) (rf : Raft n C σ) (term : Int) :
    (rf.appendStepDown gob term).commitChan = rf.commitChan := by
  unfold appendStepDown
  split <;> rfl

theorem mergeEntries_commitChan (gob : Gob (RaftImage n C) σ) (rf : Raft n C σ)
    (args : AppendEntriesArgs n C) (pli : Nat) (hle : args.leaderCommit ≤ rf.commitIndex) :
    (rf.mergeEntries gob args pli).commitChan = rf.commitChan := by
  unfold mergeEntries
  dsimp only
  split
  · rw [if_neg (by exact not_lt.mpr hle)]
    rfl
  · rw [if_neg (not_lt.mpr hle)]

theorem handleAppendEntriesReply_commitChan {rf rf' : Raft n C σ} {args : AppendEntriesArgs n C}
    {reply : AppendEntriesReply} {server : Fin n}
    (h : rf.handleAppendEntriesReply gob args reply server = some rf') :
    rf'.commitChan = rf.commitChan ∨ rf.commitIndex < rf'.commitIndex := by
  have hch := stepDown_commitChan gob rf reply.term
  have hci := stepDown_commitIndex gob rf reply.term
  unfold handleAppendEntriesReply at h
  dsimp only at h
  generalize rf.stepDown gob reply.term = rf₀ at h hch hci
  rw [← hch, ← hci]
  split at h
  · rw [← Option.some.inj h]
    exact Or.inl rfl
  · split at h
    · rw [← Option.some.inj h]
      unfold recordMatch advanceCommit
      dsimp only
      split
      · split
        · rename_i hcommit
          exact Or.inr hcommit.1
        · exact Or.inl rfl
      · exact Or.inl rfl
    · split at h
      · cases h
      · rw [← Option.some.inj h]
        exact Or.inl rfl

theorem make_commitChan {s : Fin n} {ps : Persister σ} {rf : Raft n C σ}
    (h : make gob s ps = some rf) : rf.commitChan = false := by
  unfold make at h
  dsimp only at h
  split at h
  · cases h
  · rw [← Option.some.inj h]
    unfold readPersist
    split
    · rfl
    · split <;> rfl

end Raft

/-- The applier of a new incarnation sleeps. -/
theorem not_signalled_of_make {s : Fin n} {ps : Persister σ} {rf : Raft n C σ}
    (h : Raft.make gob s ps = some rf) : ¬ ({ rf := rf } : Node n C σ).Signalled := by
  rintro (hch | hawake)
  · rw [Raft.make_commitChan h] at hch
    cases hch
  · cases hawake

/-- What step `a` does to the applier of server `t`, whose node it leaves as `nd'`. -/
inductive SignalStep (w : World n C σ) (a : Action n C σ) (t : Fin n) (nd' : Node n C σ) : Prop where
  | kept (h : nd'.Signalled → (w.nodes t).Signalled)
  | merged (env : Envelope n (AppendEntriesArgs n C)) (pli : Nat) (ha : a = .appendEntries env)
      (hdst : env.dst = t) (henv : env ∈ w.appendReqs) (hacc : (w.nodes t).rf.Accepts env.args pli)
      (hlc : (w.nodes t).rf.commitIndex < env.args.leaderCommit)
      (hci : nd'.rf.commitIndex = min env.args.leaderCommit env.args.lastIndex)
  | committed (env : Envelope n (AppendEntriesArgs n C)) (reply : AppendEntriesReply)
      (ha : a = .appendReply t env reply) (hcall : env ∈ (w.nodes t).appendCalls)
      (hdone : Completes (w.nodes t).rf env reply)
      (hci : nd'.rf.commitIndex = env.args.lastIndex)

theorem SignalStep.update {w : World n C σ} {a : Action n C σ} {s : Fin n} {nd : Node n C σ}
    (h : SignalStep w a s nd) (t : Fin n) : SignalStep w a t (Function.update w.nodes s nd t) := by
  refine (Function.forall_update_iff w.nodes fun t nd ↦ SignalStep w a t nd).mpr ⟨h, ?_⟩ t
  intro t _
  exact .kept id

/-- A section that leaves the token alone. -/
theorem SignalStep.of_commitChan {w : World n C σ} {a : Action n C σ} {t : Fin n}
    {nd' : Node n C σ} (hch : nd'.rf.commitChan = (w.nodes t).rf.commitChan)
    (hawake : nd'.applierAwake = (w.nodes t).applierAwake) : SignalStep w a t nd' := by
  apply SignalStep.kept
  unfold Node.Signalled
  rw [hch, hawake]
  exact id

/-- `AppendEntries` leaves the token for an accepted request with a higher `leaderCommit`. -/
theorem SignalStep.appendEntries {w : World n C σ} {env : Envelope n (AppendEntriesArgs n C)}
    {rf' : Raft n C σ} {reply : AppendEntriesReply} (henv : env ∈ w.appendReqs)
    (hv : (w.nodes env.dst).rf.appendEntries gob env.args = some (rf', reply)) :
    SignalStep w (.appendEntries env) env.dst { w.nodes env.dst with rf := rf' } := by
  have hch := Raft.appendStepDown_commitChan gob (w.nodes env.dst).rf env.args.term
  have hci := Raft.appendStepDown_commitIndex gob (w.nodes env.dst).rf env.args.term
  rcases Raft.appendEntries_accepts hv with ⟨_, rfl⟩ | ⟨_, p, hacc, _, rfl⟩
  · exact .of_commitChan hch rfl
  · by_cases hlc : (w.nodes env.dst).rf.commitIndex < env.args.leaderCommit
    · refine .merged env p rfl rfl henv hacc hlc ?_
      dsimp only
      rw [Raft.mergeEntries_commitIndex, hci, if_pos hlc]
      rfl
    · refine .of_commitChan ?_ rfl
      dsimp only
      rw [Raft.mergeEntries_commitChan gob _ _ _ (by omega), hch]

theorem step_signal {w w' : World n C σ} {a : Action n C σ} (hstep : Step gob w a w') (t : Fin n) :
    SignalStep w a t (w'.nodes t) := by
  cases hstep with
  | timeoutLeader | roundIdle => exact .kept id
  | requestVote env hnd henv hv =>
      subst hnd
      have hch := Raft.stepDown_commitChan gob (w.nodes env.dst).rf env.args.term
      refine .update ?_ t
      rcases Raft.requestVote_cases hv with ⟨_, rfl⟩ | ⟨_, _, _, _, rfl⟩
      · exact .of_commitChan hch rfl
      · exact .of_commitChan hch rfl
  | appendEntries env hnd henv hv =>
      subst hnd
      exact .update (.appendEntries henv hv) t
  | appendReply s env reply hnd hcall hrep hv =>
      subst hnd
      refine .update ?_ t
      rcases Raft.handleAppendEntriesReply_commitChan hv with hch | hlt
      · exact .of_commitChan hch rfl
      · rcases appendReply_commit hv with hsame | ⟨hdone, hci, _⟩
        · omega
        · exact .committed env reply rfl hcall hdone hci
  | installSnapshot env hnd henv hv =>
      subst hnd
      have hrf := Raft.installSnapshot_rf gob (w.nodes env.dst).rf env.args
      rw [hv] at hrf
      dsimp only at hrf
      have hch := Raft.stepDown_commitChan gob (w.nodes env.dst).rf env.args.term
      rw [← hrf] at hch
      refine .update ?_ t
      exact .of_commitChan hch rfl
  | snapshotReply s env reply hnd =>
      subst hnd
      refine .update ?_ t
      refine .of_commitChan ?_ rfl
      dsimp only
      unfold Raft.handleSnapshotReply
      split <;> rfl
  | start s command hnd =>
      subst hnd
      refine .update ?_ t
      refine .of_commitChan ?_ rfl
      dsimp only
      unfold Raft.start
      split <;> rfl
  | wakeApplier s hnd hrf hch =>
      subst hnd hrf
      exact .update (.kept fun _ ↦ Or.inl hch) t
  | updateApplied s hnd hawake hv =>
      subst hnd
      exact .update (.kept fun _ ↦ Or.inr hawake) t
  | condInstallSnapshot s hnd hch hvalid hv =>
      subst hnd
      refine .update (.kept ?_) t
      rcases Raft.condInstallSnapshot_cases hv with ⟨_, _, rfl⟩ | ⟨_, _, rest, rf₁, rfl, rfl⟩
      · exact id
      · exact id
  | snapshot s index data hnd hv =>
      subst hnd
      refine .update (.kept ?_) t
      rcases Raft.snapshot_cases hv with ⟨_, _, rfl⟩ | ⟨_, _, d, rest, rf₁, _, _, rfl, rfl⟩
      · exact id
      · exact id
  | crash s hnd hmake =>
      refine .update (.kept fun hs ↦ ?_) t
      exact absurd hs (not_signalled_of_make hmake)
  -- the remaining steps leave the token alone
  | campaign _ hnd | electSkip _ _ hnd | electSend _ _ hnd | voteRetire _ _ _ _ hnd
  | voteIgnore _ _ _ _ hnd | voteCount _ _ _ _ hnd | voteLead _ _ _ _ hnd | roundSnapshot _ _ hnd
  | roundAppend _ _ hnd | sendCommand _ hnd | sendSnapshot _ _ hnd | serviceDone _ hnd =>
      subst hnd
      refine .update ?_ t
      exact .kept id

/-! ## The conditions -/

/-- The request is accepted, wherever its previous entry is found. -/
def Raft.AcceptsRequest (rf : Raft n C σ) (args : AppendEntriesArgs n C) : Prop :=
  rf.Accepts args (rf.realIndex args.prevLogIndex).toNat

instance (rf : Raft n C σ) (args : AppendEntriesArgs n C) : Decidable (rf.AcceptsRequest args) := by
  unfold Raft.AcceptsRequest
  infer_instance

theorem Raft.Accepts.request {rf : Raft n C σ} {args : AppendEntriesArgs n C} {pli : Nat}
    (h : rf.Accepts args pli) : rf.AcceptsRequest args := by
  unfold Raft.AcceptsRequest
  rw [h.index, Int.toNat_natCast]
  exact h

/-- A request that moves `commitIndex` moves it to the boundary of the snapshot or beyond. -/
def CommitsAhead (w : World n C σ) : Action n C σ → Prop
  | .appendEntries env =>
    (w.nodes env.dst).rf.AcceptsRequest env.args →
      (w.nodes env.dst).rf.commitIndex < env.args.leaderCommit →
        (w.nodes env.dst).rf.lastIncludedIndex ≤ env.args.leaderCommit
  | _ => True

instance (w : World n C σ) (a : Action n C σ) : Decidable (CommitsAhead w a) := by
  unfold CommitsAhead
  induction a using Action.casesOn <;> infer_instance

/-- A request that is accepted has the terms of the log wherever the log is committed. -/
def KeepsCommitted (w : World n C σ) : Action n C σ → Prop
  | .appendEntries env =>
    (w.nodes env.dst).rf.AcceptsRequest env.args →
      ∀ j < env.args.entries.length,
        env.args.prevLogIndex + 1 + j ≤ (w.nodes env.dst).rf.commitIndex →
          ((w.nodes env.dst).rf.entryAt (env.args.prevLogIndex + 1 + j)).map Log.term =
            (env.args.entries[j]?).map Log.term
  | _ => True

instance (w : World n C σ) (a : Action n C σ) : Decidable (KeepsCommitted w a) := by
  unfold KeepsCommitted
  induction a using Action.casesOn <;> infer_instance

/-- All conditions that keep the applier inside the log. -/
def AppliesInside (w : World n C σ) (a : Action n C σ) : Prop :=
  NoRival w a ∧ CompactsCommitted w a ∧ CommitsAhead w a ∧ KeepsCommitted w a

instance (w : World n C σ) (a : Action n C σ) : Decidable (AppliesInside w a) := by
  unfold AppliesInside
  infer_instance

/-! ## What holds in every run that meets them -/

/-- The indices of a server are in order.  Only after a restart `commitIndex` may lie behind the
boundary, and then `updateApplied` sleeps. -/
structure Node.InOrder (nd : Node n C σ) : Prop where
  base : 0 ≤ nd.rf.lastIncludedIndex
  applied : nd.rf.lastIncludedIndex ≤ nd.rf.lastApplied
  ahead : nd.rf.lastApplied ≤ nd.rf.commitIndex ∨ nd.rf.lastApplied = nd.rf.lastIncludedIndex
  commit : nd.rf.commitIndex ≤ nd.rf.getLastLogIndex
  quiet : nd.rf.commitIndex < nd.rf.lastIncludedIndex → ¬ nd.Signalled

/-- An applier that is awake has a `commitIndex` that is not behind. -/
theorem Node.InOrder.base_le_commit {nd : Node n C σ} (h : nd.InOrder)
    (hawake : nd.applierAwake = true) : nd.rf.lastIncludedIndex ≤ nd.rf.commitIndex := by
  by_contra hlt
  exact h.quiet (not_le.mp hlt) (Or.inr hawake)

structure ApplierInv (gob : Gob (RaftImage n C) σ) (w : World n C σ) : Prop extends
    LeaderInv gob w where
  nodes : ∀ s, (w.nodes s).InOrder
  commits : ∀ env ∈ w.appendReqs, env.args.leaderCommit ≤ env.args.lastIndex
  behind : ∀ env ∈ w.appendReqs, (w.nodes env.args.leaderId).rf.Leads env.args.term →
    (w.nodes env.args.leaderId).rf.commitIndex < (w.nodes env.args.leaderId).rf.lastIncludedIndex →
      (w.nodes env.args.leaderId).rf.lastIncludedIndex ≤ env.args.lastIndex

namespace ApplierInv

theorem init : ApplierInv gob (World.init : World n C σ) where
  toLeaderInv := LeaderInv.init
  nodes := fun s ↦
    ⟨le_refl _, le_refl _, Or.inl (le_refl _), le_refl _, fun hlt ↦ absurd hlt (lt_irrefl _)⟩
  commits := by
    intro env henv
    cases henv
  behind := by
    intro env henv
    cases henv

variable {w w' : World n C σ} {a : Action n C σ}

/-- Entries below `commitIndex` survive a merge that agrees with them. -/
theorem commit_le_merged (h : ApplierInv gob w) {env : Envelope n (AppendEntriesArgs n C)}
    {pli : Nat} (hok : KeepsCommitted w (.appendEntries env))
    (hacc : (w.nodes env.dst).rf.Accepts env.args pli) :
    (w.nodes env.dst).rf.commitIndex ≤
      ((mergeLog (w.nodes env.dst).rf.log pli env.args.entries).length : Int) - 1 +
        (w.nodes env.dst).rf.lastIncludedIndex := by
  have hcommit := (h.nodes env.dst).commit
  have hindex := hacc.index
  have hlt := hacc.lt
  rw [Raft.getLastLogIndex_eq] at hcommit
  unfold Raft.realIndex at hindex
  rcases mergeLog_cases hlt env.args.entries with ⟨hsame, _⟩ | ⟨hnew, hlong | ⟨j, hj, hne⟩⟩
  · rw [hsame]
    exact hcommit
  · rw [hnew, List.length_append, List.length_take_of_le hlt]
    omega
  · -- the first conflict lies beyond `commitIndex`
    rw [hnew, List.length_append, List.length_take_of_le hlt]
    by_contra hover
    have hkept := hok hacc.request j hj (by omega)
    have hat : (w.nodes env.dst).rf.entryAt (env.args.prevLogIndex + 1 + j)
        = (w.nodes env.dst).rf.log[pli + 1 + j]? := by
      unfold Raft.entryAt Raft.realIndex
      rw [show env.args.prevLogIndex + 1 + j - (w.nodes env.dst).rf.lastIncludedIndex
        = (pli + 1 + j : Nat) by omega, logAt_natCast]
    rw [hat] at hkept
    exact hne hkept

theorem base_nonneg_step (h : ApplierInv gob w) (hstep : Step gob w a w') (t : Fin n) :
    0 ≤ (w'.nodes t).rf.lastIncludedIndex :=
  (h.nodes t).base.trans (step_indices hstep h.durable t).base_le

/-- A request moves `commitIndex` forward only. -/
theorem merged_commit (h : ApplierInv gob w) {env : Envelope n (AppendEntriesArgs n C)}
    (henv : env ∈ w.appendReqs) (ci : Int) :
    (if env.args.leaderCommit > ci then min env.args.leaderCommit env.args.lastIndex else ci)
      = max ci env.args.leaderCommit := by
  have hle := h.commits env henv
  split <;> omega

theorem indices_step (h : ApplierInv gob w) (hok : AppliesInside w a) (hstep : Step gob w a w')
    (t : Fin n) :
    (w'.nodes t).rf.lastIncludedIndex ≤ (w'.nodes t).rf.lastApplied ∧
      ((w'.nodes t).rf.lastApplied ≤ (w'.nodes t).rf.commitIndex ∨
        (w'.nodes t).rf.lastApplied = (w'.nodes t).rf.lastIncludedIndex) ∧
      (w'.nodes t).rf.commitIndex ≤ (w'.nodes t).rf.getLastLogIndex ∧
      (a ≠ .crash t → (w.nodes t).rf.lastApplied ≤ (w'.nodes t).rf.lastApplied) := by
  obtain ⟨_, hcom, _, hkeep⟩ := hok
  obtain ⟨hbase, happ, hahead, hcommit, _⟩ := h.nodes t
  have hindex := step_indices hstep h.durable t
  have hlen := List.length_pos_iff.mpr (h.durable t).log_ne_nil
  generalize (w'.nodes t).rf = rf' at hindex ⊢
  rw [Raft.getLastLogIndex_eq] at hcommit ⊢
  cases hindex with
  | same _ hi =>
      obtain ⟨hlog, hb, _, hci, hla⟩ := indices_eq.mp hi
      rw [hlog, hb, hci, hla]
      exact ⟨happ, hahead, hcommit, fun _ ↦ le_refl _⟩
  | appended _ _ _ _ hi =>
      obtain ⟨hlog, hb, _, hci, hla⟩ := indices_eq.mp hi
      rw [hlog, hb, hci, hla, List.length_append]
      exact ⟨happ, hahead, by omega, fun _ ↦ le_refl _⟩
  | restarted ha hres =>
      obtain ⟨d, hlog, _⟩ := hres.log
      rw [hlog, hres.lastIncludedIndex, hres.commitIndex, hres.lastApplied, List.length_cons]
      exact ⟨le_refl _, Or.inr rfl, by omega, fun hno ↦ absurd ha hno⟩
  | merged env pli ha hdst henv hacc _ hi =>
      obtain ⟨hlog, hb, _, hci, hla⟩ := indices_eq.mp hi
      subst ha hdst
      have hlt := hacc.lt
      have hle := h.commits env henv
      have hkept := h.commit_le_merged hkeep hacc
      have hsent := length_mergeLog_ge hlt env.args.entries
      have hp := hacc.index
      rw [h.merged_commit henv] at hci
      unfold Raft.realIndex at hp
      unfold AppendEntriesArgs.lastIndex at hle
      rw [hlog, hb, hci, hla]
      omega
  | committed env reply ha hcall hdone _ hi =>
      obtain ⟨hlog, hb, _, hci, hla⟩ := indices_eq.mp hi
      have hlt := hdone.ahead
      obtain ⟨hreq, hid⟩ := h.calls t env hcall
      have hsent := h.requests env hreq
      rw [hid] at hsent
      have hlast := hsent ⟨hdone.leader, hdone.sent.symm⟩
      rw [Raft.getLastLogIndex_eq] at hlast
      rw [hlog, hb, hci, hla]
      omega
  | applied ha hawake _ hi =>
      obtain ⟨hlog, hb, _, hci, hla⟩ := indices_eq.mp hi
      have hge := (h.nodes t).base_le_commit hawake
      rw [hlog, hb, hci, hla]
      omega
  | installed msg ha hch hvalid hnew hb' _ hi =>
      obtain ⟨hlog, hb, _, hci, hla⟩ := indices_eq.mp hi
      rw [hlog, hb, hci, hla, List.length_cons]
      omega
  | compacted i data dummy rest ha hnew hdrop _ hi =>
      obtain ⟨hlog, hb, _, hci, hla⟩ := indices_eq.mp hi
      subst ha
      have hle := hcom hnew
      have hlen' := congrArg List.length hdrop
      rw [List.length_drop, List.length_cons] at hlen'
      unfold Raft.realIndex at hlen'
      rw [hlog, hb, hci, hla, List.length_cons]
      omega

/-- `commitIndex` falls behind the boundary by a restart only. -/
theorem base_le_commit_step (h : ApplierInv gob w) (hcom : CompactsCommitted w a)
    (hstep : Step gob w a w') {t : Fin n} (ha : a ≠ .crash t)
    (hle : (w.nodes t).rf.lastIncludedIndex ≤ (w.nodes t).rf.commitIndex) :
    (w'.nodes t).rf.lastIncludedIndex ≤ (w'.nodes t).rf.commitIndex := by
  have hindex := step_indices hstep h.durable t
  generalize (w'.nodes t).rf = rf' at hindex ⊢
  cases hindex with
  | restarted ha' => exact absurd ha' ha
  | same _ hi | appended _ _ _ _ hi | applied _ _ _ hi =>
      obtain ⟨_, hb, _, hci, _⟩ := indices_eq.mp hi
      rw [hb, hci]
      exact hle
  | merged env pli _ hdst henv hacc _ hi =>
      obtain ⟨_, hb, _, hci, _⟩ := indices_eq.mp hi
      rw [h.merged_commit henv] at hci
      rw [hb, hci]
      omega
  | committed env reply _ _ hdone _ hi =>
      obtain ⟨_, hb, _, hci, _⟩ := indices_eq.mp hi
      have hlt := hdone.ahead
      rw [hb, hci]
      omega
  | installed _ _ _ _ _ _ _ hi =>
      obtain ⟨_, hb, _, hci, _⟩ := indices_eq.mp hi
      rw [hb, hci]
  | compacted i data _ _ ha' hnew _ _ hi =>
      obtain ⟨_, hb, _, hci, _⟩ := indices_eq.mp hi
      subst ha'
      rw [hb, hci]
      exact hcom hnew

/-- A step that leaves `commitIndex` behind the boundary has not moved the boundary. -/
theorem base_eq_of_behind (hcom : CompactsCommitted w a) {t : Fin n} {rf' : Raft n C σ}
    (hindex : IndexStep w a t rf') (hlt : rf'.commitIndex < rf'.lastIncludedIndex) :
    rf'.lastIncludedIndex = (w.nodes t).rf.lastIncludedIndex := by
  cases hindex with
  | restarted ha hres => exact hres.lastIncludedIndex
  | same _ hi | appended _ _ _ _ hi | merged _ _ _ _ _ _ _ hi | committed _ _ _ _ _ _ hi
  | applied _ _ _ hi => exact (indices_eq.mp hi).2.1
  | installed _ _ _ _ _ _ _ hi =>
      obtain ⟨_, hb, _, hci, _⟩ := indices_eq.mp hi
      omega
  | compacted i data _ _ ha hnew _ _ hi =>
      obtain ⟨_, hb, _, hci, _⟩ := indices_eq.mp hi
      subst ha
      have hle := hcom hnew
      omega

/-- Whoever wakes the applier has moved `commitIndex` to the boundary or beyond. -/
theorem quiet_step (h : ApplierInv gob w) (hok : AppliesInside w a) (hstep : Step gob w a w')
    (t : Fin n) (hlt : (w'.nodes t).rf.commitIndex < (w'.nodes t).rf.lastIncludedIndex) :
    ¬ (w'.nodes t).Signalled := by
  obtain ⟨_, hcom, hahead, _⟩ := hok
  intro hs
  by_cases ha : a = .crash t
  · -- only a restart puts `commitIndex` behind, and it leaves no token
    subst ha
    cases hstep with
    | crash _ hnd hmake =>
        dsimp only at hs
        rw [Function.update_self] at hs
        exact not_signalled_of_make hmake hs
  · have hindex := step_indices hstep h.durable t
    have hbase : ∀ env, a = .appendEntries env ∨ (∃ reply, a = .appendReply t env reply) →
        (w'.nodes t).rf.lastIncludedIndex = (w.nodes t).rf.lastIncludedIndex := by
      intro env hcases
      refine hindex.base_eq (fun i data heq ↦ ?_) fun heq ↦ ?_
      · rcases hcases with rfl | ⟨reply, rfl⟩ <;> cases heq
      · rcases hcases with rfl | ⟨reply, rfl⟩ <;> cases heq
    cases step_signal hstep t with
    | kept hold =>
        by_cases hle : (w.nodes t).rf.lastIncludedIndex ≤ (w.nodes t).rf.commitIndex
        · exact absurd (h.base_le_commit_step hcom hstep ha hle) (not_le.mpr hlt)
        · exact (h.nodes t).quiet (not_le.mp hle) (hold hs)
    | merged env pli ha' hdst henv hacc hlc hci =>
        -- the leader's `commitIndex` covers the snapshot of the follower
        rw [hci, hbase env (Or.inl ha')] at hlt
        subst ha' hdst
        have hcover := hahead hacc.request hlc
        have hsent := h.commits env henv
        omega
    | committed env reply ha' hcall hdone hci =>
        -- a leader that is behind has sent requests that reach beyond its snapshot
        rw [hci, hbase env (Or.inr ⟨reply, ha'⟩)] at hlt
        obtain ⟨hreq, hid⟩ := h.calls t env hcall
        have hreach := h.behind env hreq
        rw [hid] at hreach
        have hcover := hreach ⟨hdone.leader, hdone.sent.symm⟩
        have hgt := hdone.ahead
        omega

theorem commits_step (h : ApplierInv gob w) (hstep : Step gob w a w')
    {env : Envelope n (AppendEntriesArgs n C)} (henv : env ∈ w'.appendReqs) :
    env.args.leaderCommit ≤ env.args.lastIndex := by
  rcases step_appendReqs hstep henv with hold | ⟨s, _, _, hround⟩
  · exact h.commits env hold
  · obtain ⟨_, _, _, _, _, _, hargs⟩ := Raft.onRound_append hround
    rw [Raft.onRound_lastIndex hround, hargs]
    exact (h.nodes s).commit

theorem behind_step (h : ApplierInv gob w) (hok : AppliesInside w a) (hstep : Step gob w a w')
    {env : Envelope n (AppendEntriesArgs n C)} (henv : env ∈ w'.appendReqs)
    (hlead : (w'.nodes env.args.leaderId).rf.Leads env.args.term)
    (hlt : (w'.nodes env.args.leaderId).rf.commitIndex <
      (w'.nodes env.args.leaderId).rf.lastIncludedIndex) :
    (w'.nodes env.args.leaderId).rf.lastIncludedIndex ≤ env.args.lastIndex := by
  rcases step_appendReqs hstep henv with hold | ⟨s, ha, hne, hround⟩
  · have hlead₀ := LeaderInv.leads_before h.toPollInv hstep hold hlead
    have hcrash : a ≠ .crash env.args.leaderId := by
      rintro rfl
      have hrole := hlead.1
      rw [(step_crash hstep h.durable).state] at hrole
      cases hrole
    have hbehind : (w.nodes env.args.leaderId).rf.commitIndex <
        (w.nodes env.args.leaderId).rf.lastIncludedIndex :=
      not_le.mp fun hle ↦ not_le.mpr hlt (h.base_le_commit_step hok.2.1 hstep hcrash hle)
    rw [base_eq_of_behind hok.2.1 (step_indices hstep h.durable _) hlt]
    exact h.behind env hold hlead₀ hbehind
  · -- a round whose previous entry lies before the snapshot sends the snapshot instead
    obtain ⟨hid, _, hrf⟩ := LeaderInv.of_new_request h.toPollInv hstep ha hround
    obtain ⟨_, hge, _, _, _, _, hargs⟩ := Raft.onRound_append hround
    rw [hid, hrf, AppendEntriesArgs.lastIndex, hargs]
    dsimp only
    omega

theorem step (h : ApplierInv gob w) (hok : AppliesInside w a) (hstep : Step gob w a w') :
    ApplierInv gob w' where
  toLeaderInv := h.toLeaderInv.step hok.1 hstep
  nodes := by
    intro t
    obtain ⟨happ, hahead, hcommit, _⟩ := h.indices_step hok hstep t
    exact ⟨h.base_nonneg_step hstep t, happ, hahead, hcommit, h.quiet_step hok hstep t⟩
  commits := fun _ henv ↦ h.commits_step hstep henv
  behind := fun _ henv hlead hlt ↦ h.behind_step hok hstep henv hlead hlt

theorem run [DecidableEq C] [DecidableEq σ] {as : List (Action n C σ)}
    (hok : Lib.Along (World.step gob) AppliesInside World.init as)
    (hrun : Lib.run (World.step gob) World.init as = some w) : ApplierInv gob w :=
  Lib.run_invariant (fun _ _ _ h hok hstep ↦ h.step hok (World.step_inv hstep)) init hok hrun

/-- Within one incarnation `lastApplied` never goes back. -/
theorem lastApplied_le [DecidableEq C] [DecidableEq σ] {s : Fin n} {as : List (Action n C σ)}
    (h : ApplierInv gob w) (hok : Lib.Along (World.step gob) AppliesInside w as)
    (hcrash : .crash s ∉ as) (hrun : Lib.run (World.step gob) w as = some w') :
    (w.nodes s).rf.lastApplied ≤ (w'.nodes s).rf.lastApplied := by
  have hok' : Lib.Along (World.step gob) (fun v a ↦ AppliesInside v a ∧ a ≠ .crash s) w as :=
    Lib.along_and_forall_mem hok fun a ha heq ↦ hcrash (heq ▸ ha)
  let R : World n C σ → World n C σ → Prop :=
    fun v v' ↦ (v.nodes s).rf.lastApplied ≤ (v'.nodes s).rf.lastApplied
  refine Lib.run_relation (R := R) (fun _ ↦ le_refl _) (fun _ _ _ ↦ le_trans) ?_ h hok' hrun
  intro v a v' hv hcond hstep
  have hstep' := World.step_inv hstep
  exact ⟨hv.step hcond.1 hstep', (hv.indices_step hcond.1 hstep' s).2.2.2 hcond.2⟩

end ApplierInv

/-- In a run that meets the conditions the applier never leaves the log: `lastApplied` is not behind
the snapshot, the entries it is going to read are real entries of the log, and it does not go back
before the next crash. -/
theorem applier_stays_in_log [DecidableEq C] [DecidableEq σ] {gob : Gob (RaftImage n C) σ}
    {w : World n C σ} {as : List (Action n C σ)}
    (hok : Lib.Along (World.step gob) AppliesInside World.init as)
    (hrun : Lib.run (World.step gob) World.init as = some w) (s : Fin n) :
    (w.nodes s).rf.lastIncludedIndex ≤ (w.nodes s).rf.lastApplied ∧
      (∀ k, (w.nodes s).rf.lastApplied < k → k ≤ (w.nodes s).rf.commitIndex →
        1 ≤ (w.nodes s).rf.realIndex k ∧ (w.nodes s).rf.realIndex k < (w.nodes s).rf.log.length) ∧
      ∀ pre mid v, as = pre ++ mid → Lib.run (World.step gob) World.init pre = some v →
        .crash s ∉ mid → (v.nodes s).rf.lastApplied ≤ (w.nodes s).rf.lastApplied := by
  obtain ⟨_, happ, _, hcommit, _⟩ := (ApplierInv.run hok hrun).nodes s
  refine ⟨happ, fun k hlo hhi ↦ ?_, fun pre mid v has hv hcrash ↦ ?_⟩
  · rw [Raft.getLastLogIndex_eq] at hcommit
    unfold Raft.realIndex
    omega
  · subst has
    obtain ⟨hpre, hmid⟩ := (Lib.along_append hv).mp hok
    obtain ⟨v', hv', hrest⟩ := Lib.run_append.mp hrun
    rw [hv, Option.some.injEq] at hv'
    subst hv'
    exact (ApplierInv.run hpre hv).lastApplied_le hmid hcrash hrest

/-- Server 0 leads term 1 and commits two commands with server 1, which learns of both, while server
2 has both but learns of the first only.  Server 1 applies and compacts them and restarts.  Server 2
leads term 2 and tells server 1 what it knows to be committed, first one command and then two. -/
def lagRun : List (Action 3 Nat (RaftImage 3 Nat)) :=
  let vote (rpc : Nat) (term : Int) (candidate : Fin 3) (index last : Int) :
      Envelope 3 (RequestVoteArgs 3) := ⟨rpc, 1, ⟨term, candidate, index, last⟩⟩
  let yes (term : Int) : RequestVoteReply := { term := term, voteGranted := true }
  let x : Log Nat := ⟨some 7, 1⟩
  let y : Log Nat := ⟨some 8, 1⟩
  let append (rpc : Nat) (dst : Fin 3) (term : Int) (leader : Fin 3) (index last : Int)
      (entries : List (Log Nat)) (commit : Int) : Envelope 3 (AppendEntriesArgs 3 Nat) :=
    ⟨rpc, dst, ⟨term, leader, index, last, entries, commit⟩⟩
  let ok (term : Int) : AppendEntriesReply := { term := term, success := true }
  [ .electTimeout 0, .electRound 0 0, .electRound 0 0, .requestVote (vote 0 1 0 0 0),
    .voteReply 0 0 (vote 0 1 0 0 0) (yes 1), .start 0 (some 7),
    .onRound 0 1, .appendEntries (append 1 1 1 0 0 0 [x] 0),
    .appendReply 0 (append 1 1 1 0 0 0 [x] 0) (ok 1), .start 0 (some 8),
    .onRound 0 2, .appendEntries (append 2 2 1 0 0 0 [x, y] 1),
    .onRound 0 1, .appendEntries (append 3 1 1 0 1 1 [y] 1),
    .appendReply 0 (append 3 1 1 0 1 1 [y] 1) (ok 1),
    .onRound 0 1, .appendEntries (append 4 1 1 0 2 1 [] 2),
    .wakeApplier 1, .updateApplied 1, .sendCommand 1, .serviceDone 1, .sendCommand 1,
    .serviceDone 1, .snapshot 1 2 [bootImage], .crash 1,
    -- term 2
    .electTimeout 2, .electRound 2 0, .electRound 2 0, .requestVote (vote 6 2 2 2 1),
    .voteReply 2 0 (vote 6 2 2 2 1) (yes 2),
    .onRound 2 1, .appendEntries (append 7 1 2 2 2 1 [] 1), .wakeApplier 1, .updateApplied 1,
    .appendReply 2 (append 7 1 2 2 2 1 [] 1) (ok 2),
    .onRound 2 1, .appendEntries (append 8 1 2 2 2 1 [] 2), .wakeApplier 1, .updateApplied 1,
    .sendCommand 1 ]

/-- After its restart server 1 takes `lastApplied` back from 2 to 1, behind its snapshot of index 2;
the next message it builds is for index 2, and it reads the dummy entry. -/
theorem applier_leaves_log :
    (∃ w, Lib.run (World.step (Gob.plain (RaftImage 3 Nat))) World.init (lagRun.take 33) = some w ∧
      (w.nodes 1).rf.lastApplied = 2 ∧ (w.nodes 1).rf.lastIncludedIndex = 2) ∧
    (∃ w, Lib.run (World.step (Gob.plain (RaftImage 3 Nat))) World.init (lagRun.take 34) = some w ∧
      (w.nodes 1).rf.lastApplied = 1 ∧ (w.nodes 1).rf.lastIncludedIndex = 2) ∧
    ∃ w, Lib.run (World.step (Gob.plain (RaftImage 3 Nat))) World.init (lagRun.take 38) = some w ∧
      (w.nodes 1).rf.lastApplied < 2 ∧ (w.nodes 1).rf.commitIndex = 2 ∧
      (w.nodes 1).rf.realIndex 2 = 0 ∧
      (w.nodes 1).rf.updateApplied.map Prod.snd =
        some [{ commandValid := true, command := none, commandIndex := 2 }] := by
  have hbefore : (Lib.run (World.step (Gob.plain (RaftImage 3 Nat))) World.init
      (lagRun.take 33)).any (fun w ↦ decide ((w.nodes 1).rf.lastApplied = 2 ∧
        (w.nodes 1).rf.lastIncludedIndex = 2)) = true := by
    decide +kernel
  have hafter : (Lib.run (World.step (Gob.plain (RaftImage 3 Nat))) World.init
      (lagRun.take 34)).any (fun w ↦ decide ((w.nodes 1).rf.lastApplied = 1 ∧
        (w.nodes 1).rf.lastIncludedIndex = 2)) = true := by
    decide +kernel
  have hreads : (Lib.run (World.step (Gob.plain (RaftImage 3 Nat))) World.init
      (lagRun.take 38)).any (fun w ↦ decide ((w.nodes 1).rf.lastApplied < 2 ∧
        (w.nodes 1).rf.commitIndex = 2 ∧ (w.nodes 1).rf.realIndex 2 = 0 ∧
        (w.nodes 1).rf.updateApplied.map Prod.snd =
          some [{ commandValid := true, command := none, commandIndex := 2 }])) = true := by
    decide +kernel
  obtain ⟨w, hrun, hw⟩ := Lib.exists_run_of_any hbefore
  obtain ⟨w', hrun', hw'⟩ := Lib.exists_run_of_any hafter
  obtain ⟨v, hv, hread⟩ := Lib.exists_run_of_any hreads
  exact ⟨⟨w, hrun, of_decide_eq_true hw⟩, ⟨w', hrun', of_decide_eq_true hw'⟩,
    v, hv, of_decide_eq_true hread⟩

/-- The part of `lagRun` up to the restart meets the conditions. -/
theorem applier_stays_in_log_until_restart :
    ∃ w, Lib.run (World.step (Gob.plain (RaftImage 3 Nat))) World.init (lagRun.take 25) = some w ∧
      (w.nodes 1).rf.lastIncludedIndex = 2 ∧
      (w.nodes 1).rf.lastIncludedIndex ≤ (w.nodes 1).rf.lastApplied := by
  have hcheck : (Lib.run (World.step (Gob.plain (RaftImage 3 Nat))) World.init
      (lagRun.take 25)).any (fun w ↦ decide ((w.nodes 1).rf.lastIncludedIndex = 2)) = true := by
    decide +kernel
  have hok : Lib.Along (World.step (Gob.plain (RaftImage 3 Nat))) AppliesInside World.init
      (lagRun.take 25) := by
    decide +kernel
  obtain ⟨w, hrun, hw⟩ := Lib.exists_run_of_any hcheck
  exact ⟨w, hrun, of_decide_eq_true hw, (applier_stays_in_log hok hrun 1).1⟩

end Lab6824
