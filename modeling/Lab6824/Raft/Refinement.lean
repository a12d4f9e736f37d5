import Lab6824.Raft.Simulation

/-!
# Refinement — every step of the cluster is matched by moves of the replicated logs

The lemmas of `Simulation` are put together here, one case for each way a step can end.
-/

namespace Lab6824

variable {n : Nat} {C σ : Type} {gob : Gob (RaftImage n C) σ}

open Lib (Replica Move lastTerm UpToDate LogInv Grows)

/-- A request that passes the term check finds a server that has come to its term and is no
candidate. -/
theorem appendStepDown_settles (gob : Gob (RaftImage n C) σ) (rf : Raft n C σ) {term : Int}
    (hle : (rf.appendStepDown gob term).currentTerm ≤ term) :
    (rf.appendStepDown gob term).currentTerm = term ∧
      (rf.appendStepDown gob term).state ≠ .candidate := by
  rcases Raft.appendStepDown_cases gob rf term with ⟨_, he⟩ | ⟨hge, hno, he⟩
  · rw [he]
    exact ⟨rfl, Role.noConfusion⟩
  · rw [he] at hle ⊢
    have hterm := le_antisymm hle hge
    exact ⟨hterm, fun hc ↦ hno ⟨hc, hterm⟩⟩

theorem mergeEntries_keeps (gob : Gob (RaftImage n C) σ) (rf : Raft n C σ)
    (args : AppendEntriesArgs n C) (pli : Nat) :
    (rf.mergeEntries gob args pli).currentTerm = rf.currentTerm ∧
      (rf.mergeEntries gob args pli).state = rf.state ∧
      (rf.mergeEntries gob args pli).matchIndex = rf.matchIndex := by
  obtain ⟨rf₁, ci, ch, he, hrf⟩ := Raft.mergeEntries_cases gob rf args pli
  rw [he]
  rcases hrf with rfl | rfl
  · exact ⟨rfl, rfl, rfl⟩
  · exact ⟨rfl, rfl, rfl⟩

namespace Sim

variable {quorum : Finset (Fin n) → Prop} {w w' : World n C σ} {g : Replica (Fin n) (Log C)}

/-- `RequestVote`: a step-down, and a vote if it is granted. -/
theorem requestVote_step (h : Sim w g) (hI : LogInv g) (hflat : FlatInv gob w)
    {env : Envelope n (RequestVoteArgs n)} {rf : Raft n C σ} {reply : RequestVoteReply}
    {nd : Node n C σ} (hnd : w.nodes env.dst = nd) (henv : env ∈ w.voteReqs)
    (hv : nd.rf.requestVote gob env.args = some (rf, reply)) :
    ∃ g', Relation.ReflTransGen (Move quorum) g g' ∧
      Sim { w with
        nodes := Function.update w.nodes env.dst { nd with rf := rf }
        voteReps := (env, reply) :: w.voteReps
        trace :=
          if reply.voteGranted then
            .granted env.dst rf.currentTerm env.args.candidateId :: w.trace
          else w.trace } g' := by
  subst hnd
  rcases Raft.requestVote_cases hv with ⟨rfl, rfl⟩ | ⟨rfl, hterm, _, hfresh, hrf⟩
  · refine h.stepDown (s := env.dst) rfl ⟨List.suffix_refl _, fun _ _ ↦ id, fun _ ↦ id,
      fun _ _ he _ ↦ he, fun _ ↦ id, fun e r he hyes ↦ ?_⟩ rfl fun el hmem ↦ ⟨el, hmem, rfl⟩
    rcases List.mem_cons.mp he with heq | hold
    · obtain ⟨rfl, rfl⟩ := Prod.mk.inj heq
      cases hyes
    · exact hold
  · -- first the step-down, then the vote
    let w₁ : World n C σ := { w with
      nodes := Function.update w.nodes env.dst { w.nodes env.dst with rf := rf } }
    have hcore : rf.core = ((w.nodes env.dst).rf.stepDown gob env.args.term).core := by
      rw [hrf]
      rfl
    have hphase : ∃ g₁, Relation.ReflTransGen (Move quorum) g g₁ ∧ Sim w₁ g₁ :=
      h.stepDown (s := env.dst) rfl (.of_eq rfl rfl rfl rfl rfl) hcore fun el hmem ↦ ⟨el, hmem, rfl⟩
    obtain ⟨g₁, hm₁, h₁⟩ := hphase
    have hself : w₁.nodes env.dst = { w.nodes env.dst with rf := rf } :=
      Function.update_self _ _ _
    obtain ⟨d, hlog, hd⟩ := hflat.log_eq env.dst
    have hlog₀ := Raft.stepDown_log gob (w.nodes env.dst).rf env.args.term
    have hlii := (SameBoundary.stepDown gob (w.nodes env.dst).rf env.args.term).index
    have hct : rf.currentTerm = env.args.term := by
      rw [← hterm, (core_eq hcore).1]
    have hup := isFreshThan_fresh (by rw [hlog₀]; exact hlog) hd
      (by rw [hlii]; exact hflat.lastIncludedIndex env.dst) hfresh
    let w₂ : World n C σ := { w₁ with
      voteReps := (env, { term := env.args.term, voteGranted := true }) :: w.voteReps
      trace := .granted env.dst rf.currentTerm env.args.candidateId :: w.trace }
    have hold : ∀ {z T}, .elected z T ∈ w₂.trace → .elected z T ∈ w.trace := fun hmem ↦
      (List.mem_cons.mp hmem).resolve_left (by simp)
    have hvote : ∃ g₂, Relation.ReflTransGen (Move quorum) g₁ g₂ ∧ Sim w₂ g₂ :=
      h₁.grant (hI.moves hm₁) rfl (List.suffix_cons _ _) (fun z T hmem ↦ hold hmem) rfl rfl rfl rfl
        henv (by rw [hself]; exact hct) (by rw [hself, (core_eq hcore).2.1]; exact hup)
    obtain ⟨g₂, hm₂, h₂⟩ := hvote
    exact ⟨g₂, hm₁.trans hm₂, h₂⟩

theorem log_matches (h : Sim w g) (hI : LogInv g) (s : Fin n) :
    Lib.Matches g (w.nodes s).rf.log.tail := by
  rw [← (h.nodes s).log]
  exact hI.log_matches s

/-- A request that is accepted leaves the log that it carries, or a longer one, and its term. -/
theorem merge (h : Sim w g) (hI : LogInv g) (hflat : FlatInv gob w)
    {env : Envelope n (AppendEntriesArgs n C)} {L : List (Log C)} {p : Nat}
    (hcarries : Carries g env.args L p) {rf : Raft n C σ} {reply : AppendEntriesReply}
    (hv : (w.nodes env.dst).rf.appendEntries gob env.args = some (rf, reply))
    (hyes : reply.success = true) :
    rf.currentTerm = env.args.term ∧
      rf.commitIndex = (if env.args.leaderCommit > (w.nodes env.dst).rf.commitIndex then
        min env.args.leaderCommit L.length else (w.nodes env.dst).rf.commitIndex) ∧
      (L <+: (w.nodes env.dst).rf.log.tail ∧ rf.log.tail = (w.nodes env.dst).rf.log.tail ∨
        ¬ L <+: (w.nodes env.dst).rf.log.tail ∧ rf.log.tail = L) := by
  obtain ⟨d, hlog, hd⟩ := hflat.log_eq env.dst
  have hlog₀ := Raft.appendStepDown_log gob (w.nodes env.dst).rf env.args.term
  have hlii := (SameBoundary.appendStepDown gob (w.nodes env.dst).rf env.args.term).index
  have hci := Raft.appendStepDown_commitIndex gob (w.nodes env.dst).rf env.args.term
  rcases (Raft.appendEntries_cases hv).2 with ⟨hno, _⟩ | ⟨_, hle, q, prev, hq, hprev, hterm, hrf⟩
  · rw [hyes] at hno
    cases hno
  · have hct := (appendStepDown_settles gob (w.nodes env.dst).rf hle).1
    have hqp : q = p := by
      have hp := hcarries.prevLogIndex
      rw [hflat.lastIncludedIndex] at hlii
      unfold Raft.realIndex at hq
      omega
    subst hqp
    rw [hlog₀] at hprev
    have hlt := (List.getElem?_eq_some_iff.mp hprev).1
    rw [hlog] at hprev
    obtain ⟨M, hM, hcases⟩ := mergeEntries_accepts gob (hlog₀.trans hlog) (h.log_matches hI env.dst)
      ((hI.llog_matches _).of_isPrefix hcarries.leader) hcarries.le_length
      (by rw [hlog, List.length_cons] at hlt; omega)
      (by rw [lastTerm_take hd hprev, hterm, hcarries.prevLogTerm]) hcarries.entries
    refine ⟨?_, ?_, ?_⟩
    · rw [hrf, (mergeEntries_keeps gob _ env.args q).1, hct]
    · rw [hrf, Raft.mergeEntries_commitIndex, hci, hcarries.length_eq]
    · rw [hrf, hM]
      exact hcases

/-- `AppendEntries`: a step-down, and the log of the request if it is accepted. -/
theorem appendEntries_step (h : Sim w g) (hI : LogInv g) (hflat : FlatInv gob w)
    {env : Envelope n (AppendEntriesArgs n C)} {rf : Raft n C σ} {reply : AppendEntriesReply}
    {nd : Node n C σ} (hnd : w.nodes env.dst = nd) (henv : env ∈ w.appendReqs)
    (hv : nd.rf.appendEntries gob env.args = some (rf, reply)) :
    ∃ g', Relation.ReflTransGen (Move quorum) g g' ∧
      Sim { w with
        nodes := Function.update w.nodes env.dst { nd with rf := rf }
        appendReps := (env, reply) :: w.appendReps } g' := by
  subst hnd
  rcases (Raft.appendEntries_cases hv).2 with ⟨hno, rfl⟩ | ⟨hyes, hle, p, _, _, _, _, hrf⟩
  · refine h.appendStepDown (s := env.dst) rfl ⟨List.suffix_refl _, fun _ _ ↦ id, fun _ ↦ id,
      fun e r he hyes ↦ ?_, fun _ ↦ id, fun _ _ he _ ↦ he⟩ rfl fun el hmem ↦ ⟨el, hmem, rfl⟩
    rcases List.mem_cons.mp he with heq | hold
    · obtain ⟨rfl, rfl⟩ := Prod.mk.inj heq
      rw [hno] at hyes
      cases hyes
    · exact hold
  · obtain ⟨L, p₀, hcarries⟩ := h.sent env henv
    have hmerge := (h.merge hI hflat hcarries hv hyes).2.2
    have hlog₀ := Raft.appendStepDown_log gob (w.nodes env.dst).rf env.args.term
    obtain ⟨hct, hnot⟩ := appendStepDown_settles gob (w.nodes env.dst).rf hle
    obtain ⟨hmct, hmstate, hmmatch⟩ := mergeEntries_keeps gob
      ((w.nodes env.dst).rf.appendStepDown gob env.args.term) env.args p
    rw [← hrf] at hmct hmstate hmmatch
    rw [← hlog₀] at hmerge
    -- first the step-down, then the merge
    let nd₁ : Node n C σ := { w.nodes env.dst with
      rf := (w.nodes env.dst).rf.appendStepDown gob env.args.term }
    let w₁ : World n C σ := { w with nodes := Function.update w.nodes env.dst nd₁ }
    have hphase : ∃ g₁, Relation.ReflTransGen (Move quorum) g g₁ ∧ Sim w₁ g₁ :=
      h.appendStepDown (s := env.dst) rfl (.of_eq rfl rfl rfl rfl rfl) rfl
        fun el hmem ↦ ⟨el, hmem, rfl⟩
    obtain ⟨g₁, hm₁, h₁⟩ := hphase
    let w₂ : World n C σ := { w with
      nodes := Function.update w.nodes env.dst { w.nodes env.dst with rf := rf }
      appendReps := (env, reply) :: w.appendReps }
    have hself : w₁.nodes env.dst = nd₁ := Function.update_self _ _ _
    have hnodes : w₂.nodes =
        Function.update w₁.nodes env.dst { w.nodes env.dst with rf := rf } :=
      (Function.update_idem _ _ _).symm
    have hphase₂ : ∃ g₂, Relation.ReflTransGen (Move quorum) g₁ g₂ ∧ Sim w₂ g₂ := by
      refine h₁.accept (hI.moves hm₁) hnodes rfl rfl rfl rfl rfl
        (hcarries.mono (hI.moves_grows hm₁)) ?_ ?_ ?_ ?_ ?_ ?_ ?_
      all_goals rw [hself]
      · exact hct
      · exact hnot
      · exact hmct
      · exact hmstate
      · exact hmmatch
      · exact hmerge
    obtain ⟨g₂, hm₂, h₂⟩ := hphase₂
    exact ⟨g₂, hm₁.trans hm₂, h₂⟩

/-- The reply to `AppendEntries`: a step-down, or the leader learns what has been acknowledged. -/
theorem appendReply_step (h : Sim w g) {s : Fin n} {env : Envelope n (AppendEntriesArgs n C)}
    {reply : AppendEntriesReply} {nd nd' : Node n C σ} {rf : Raft n C σ} (hnd : w.nodes s = nd)
    (hrep : (env, reply) ∈ w.appendReps)
    (hv : nd.rf.handleAppendEntriesReply gob env.args { reply with sendTerm := env.args.term }
      env.dst = some rf)
    (hrf : nd'.rf = rf) (hel : nd'.elects = nd.elects) :
    ∃ g', Relation.ReflTransGen (Move quorum) g g' ∧
      Sim { w with nodes := Function.update w.nodes s nd' } g' := by
  subst hnd hrf
  obtain ⟨ni, mi, ci, ch, hfields⟩ := Raft.handleAppendEntriesReply_cases hv
  have hmatch := Raft.handleAppendEntriesReply_match rfl hv
  dsimp only at hfields hmatch
  have hct : nd'.rf.currentTerm = ((w.nodes s).rf.stepDown gob reply.term).currentTerm := by
    rw [hfields]
  have hlog : nd'.rf.log = ((w.nodes s).rf.stepDown gob reply.term).log := by
    rw [hfields]
  have hstate : nd'.rf.state = ((w.nodes s).rf.stepDown gob reply.term).state := by
    rw [hfields]
  rcases hmatch with ⟨hmatch, _⟩ | ⟨hlead, hsent, hyes, _, hmatch, _⟩
  · have hcore : nd'.rf.core = ((w.nodes s).rf.stepDown gob reply.term).core := by
      rw [Raft.core, hct, hlog, hstate, hmatch, Raft.core]
    exact h.stepDown rfl (.of_eq rfl rfl rfl rfl rfl) hcore fun el hmem ↦ ⟨el, hel ▸ hmem, rfl⟩
  · -- a leader has not stepped down
    have hself : (w.nodes s).rf.stepDown gob reply.term = (w.nodes s).rf := by
      rcases Raft.stepDown_cases gob (w.nodes s).rf reply.term with ⟨_, he⟩ | ⟨_, he⟩
      · rw [he] at hlead
        cases hlead
      · exact he
    rw [hself] at hct hlog hstate hsent hmatch
    obtain ⟨L, hL, hlen⟩ := h.acked env reply hrep hyes
    refine ⟨g, .refl, h.recordMatch rfl (.of_eq rfl rfl rfl rfl rfl) hct hlog hstate hel ?_
      (hsent ▸ hL)⟩
    rw [hmatch, hlen]

/-- The last vote that was missing is counted, and the candidate becomes leader. -/
theorem voteLead_step (h : Sim w g) (hI : LogInv g) (hpoll : PollInv gob w) {s : Fin n} {k : Nat}
    {env : Envelope n (RequestVoteArgs n)} {reply : RequestVoteReply} {el el' : Elect n}
    (hwin : Wins w s k env reply el) (hcounted : el'.counted = (env.dst, env.args.term) :: el.counted)
    (hfirst : ∀ z, .elected z (w.nodes s).rf.currentTerm ∈ w.trace → z = s)
    (hquorum : g.elog (w.nodes s).rf.currentTerm = none → ∃ Q, quorum Q ∧ ∀ z ∈ Q,
      ∃ Z, g.voted z (w.nodes s).rf.currentTerm s Z ∧ UpToDate (w.nodes s).rf.log.tail Z) :
    ∃ g', Relation.ReflTransGen (Move quorum) g g' ∧
      Sim { w with
        nodes := Function.update w.nodes s
          { w.nodes s with
            rf := (w.nodes s).rf.toLeader, elects := (w.nodes s).elects.set k el' }
        trace := .elected s (w.nodes s).rf.currentTerm :: w.trace } g' := by
  have hopen : ∀ z, .elected z (w.nodes s).rf.currentTerm ∉ w.trace := by
    intro z hz
    have hzs := hfirst z hz
    subst hzs
    exact (hpoll.settled z _ hz).2 rfl hwin.candidate
  have helog : g.elog (w.nodes s).rf.currentTerm = none := by
    cases hX : g.elog (w.nodes s).rf.currentTerm with
    | none => rfl
    | some X =>
        obtain ⟨z, hz⟩ := h.unelected _ X hX
        exact absurd hz (hopen z)
  let nd₁ : Node n C σ := { w.nodes s with elects := (w.nodes s).elects.set k el' }
  let w₁ : World n C σ := { w with nodes := Function.update w.nodes s nd₁ }
  have hself : w₁.nodes s = nd₁ := Function.update_self _ _ _
  have hrf : ∀ t, (w₁.nodes t).rf = (w.nodes t).rf :=
    (Function.forall_update_iff w.nodes fun t nd ↦ nd.rf = (w.nodes t).rf).mpr
      ⟨rfl, fun _ _ ↦ rfl⟩
  have hcand := (hpoll.elects s el (List.mem_of_getElem? hwin.elect)).calls env hwin.call
  have h₁ : Sim w₁ g := by
    refine h.count rfl (.of_eq rfl rfl rfl rfl rfl) rfl hwin.elect rfl (hwin.term ▸ hcounted) ?_
    exact h.vote_upToDate hwin.rep hwin.granted hcand hwin.term
  obtain ⟨Q, hQ, hbacked⟩ := hquorum helog
  let nd₂ : Node n C σ := { nd₁ with rf := (w.nodes s).rf.toLeader }
  have hnodes : Function.update w.nodes s nd₂ = Function.update w₁.nodes s nd₂ :=
    (Function.update_idem _ _ _).symm
  refine h₁.lead hI hnodes (by rw [hrf]) (by rw [hself]) (by rw [hrf]) rfl rfl rfl rfl
    (by rw [hrf]; exact hwin.candidate) (fun t ht ↦ ?_) (by rw [hrf]; exact hopen) hQ
    (by rw [hrf]; exact hbacked)
  rw [hrf] at ht ⊢
  exact hpoll.leader t ht

/-- A step that changes nothing that the simulation looks at. -/
theorem idle {s : Fin n} {nd : Node n C σ} (h : Sim w g)
    (hnodes : w'.nodes = Function.update w.nodes s nd) (hq : Quiet w w')
    (hcore : nd.rf.core = (w.nodes s).rf.core)
    (hel : ∀ el' ∈ nd.elects, ∃ el ∈ (w.nodes s).elects, el'.counted = el.counted) :
    ∃ g', Relation.ReflTransGen (Move quorum) g g' ∧ Sim w' g' :=
  ⟨g, .refl, h.frame hnodes hq ((h.nodes s).congr hcore hel) (.of_core hcore)⟩

/-- A restart: what the simulation looks at is durable, and the server is a follower. -/
theorem crash_step {s : Fin n} {rf : Raft n C σ} (h : Sim w g)
    (hdurable : Durable gob (w.nodes s).rf)
    (hmake : Raft.make gob s (w.nodes s).rf.persister = some rf) :
    Sim { w with nodes := Function.update w.nodes s { rf := rf } } g := by
  obtain ⟨rf', hmake', hres, _⟩ := hdurable.make s
  rw [hmake, Option.some.injEq] at hmake'
  subst hmake'
  obtain ⟨d, hlog, _⟩ := hres.log
  have htail : rf.log.tail = (w.nodes s).rf.log.tail := by
    rw [hlog]
    rfl
  have hnot : ∀ {r}, r ≠ .follower → rf.state ≠ r := fun hne he ↦ hne (he ▸ hres.state)
  refine h.frame rfl (.of_eq rfl rfl rfl rfl rfl) ?_
    (.of_not_candidate hres.currentTerm.ge (hnot Role.noConfusion))
  exact (h.nodes s).keep hres.currentTerm htail (Or.inr hres.state)
    (fun hl ↦ absurd hl (hnot Role.noConfusion)) fun el hel ↦ absurd hel List.not_mem_nil

/-- The reply to `InstallSnapshot`, where all snapshots have index `0`. -/
theorem snapshotReply_step {s server : Fin n} {nd : Node n C σ} {reply : InstallSnapshotReply}
    (h : Sim w g) (hrf : nd.rf = (w.nodes s).rf.handleSnapshotReply gob 0 reply server)
    (hel : nd.elects = (w.nodes s).elects) :
    ∃ g', Relation.ReflTransGen (Move quorum) g g' ∧
      Sim { w with nodes := Function.update w.nodes s nd } g' := by
  have hels : ∀ el' ∈ nd.elects, ∃ el ∈ (w.nodes s).elects, el'.counted = el.counted :=
    fun el hmem ↦ ⟨el, hel ▸ hmem, rfl⟩
  have hq : Quiet w { w with nodes := Function.update w.nodes s nd } := .of_eq rfl rfl rfl rfl rfl
  unfold Raft.handleSnapshotReply at hrf
  split at hrf
  · rename_i hlt
    exact h.follow rfl hq hlt (by rw [hrf]) hels
  · have hct : nd.rf.currentTerm = (w.nodes s).rf.currentTerm := by rw [hrf]
    have hlog : nd.rf.log = (w.nodes s).rf.log := by rw [hrf]
    have hstate : nd.rf.state = (w.nodes s).rf.state := by rw [hrf]
    refine ⟨g, .refl, h.frame rfl hq ?_ (.of_same hct hstate fun _ ↦ hlog)⟩
    refine (h.nodes s).keep hct (by rw [hlog]) (Or.inl hstate) (fun _ z ↦ ?_) hels
    have hz : nd.rf.matchIndex z = (w.nodes s).rf.matchIndex z ∨ nd.rf.matchIndex z = 0 := by
      rw [hrf]
      dsimp only
      by_cases hzs : z = server
      · rw [hzs, Function.update_self]
        omega
      · exact Or.inl (Function.update_of_ne hzs _ _)
    exact hz.imp id fun h0 ↦ Or.inl h0.le

/-- `Start`: a leader appends the command, and the others refuse it. -/
theorem start_step {s : Fin n} (h : Sim w g) (hI : LogInv g) (hpoll : PollInv gob w)
    (command : Option C)
    (huniq : ∀ z z' T, .elected z T ∈ w.trace → .elected z' T ∈ w.trace → z = z') :
    ∃ g', Relation.ReflTransGen (Move quorum) g g' ∧
      Sim { w with
        nodes := Function.update w.nodes s
          { w.nodes s with rf := ((w.nodes s).rf.start gob command).1 } } g' := by
  by_cases hlead : (w.nodes s).rf.state = .leader
  · have hstart : ((w.nodes s).rf.start gob command).1 = Raft.persist gob
        { (w.nodes s).rf with
          log := (w.nodes s).rf.log ++
            [{ command := command, term := (w.nodes s).rf.currentTerm }] } := by
      unfold Raft.start
      rw [if_pos hlead]
    rw [hstart]
    refine h.append hI rfl (.of_eq rfl rfl rfl rfl rfl) hlead (hpoll.durable s).log_ne_nil rfl rfl
      rfl rfl rfl rfl (hpoll.leader s hlead) fun t hts ht heq ↦ hts ?_
    refine huniq t s _ (hpoll.leader t ht) ?_
    rw [heq]
    exact hpoll.leader s hlead
  · have hstart : ((w.nodes s).rf.start gob command).1 = (w.nodes s).rf := by
      unfold Raft.start
      rw [if_neg hlead]
    rw [hstart]
    exact h.idle rfl (.of_eq rfl rfl rfl rfl rfl) rfl fun el hmem ↦ ⟨el, hmem, rfl⟩

/-- The forward simulation.  `quorum` is what the caller can say about the voters of a new leader. -/
theorem step (h : Sim w g) (hI : LogInv g) (hflat : FlatInv gob w) (hpoll : PollInv gob w)
    {a : Action n C σ} (hok : NoCompaction a) (hstep : Step gob w a w')
    (huniq : ∀ z z' T, .elected z T ∈ w'.trace → .elected z' T ∈ w'.trace → z = z')
    (hquorum : ∀ s k env reply el, a = .voteReply s k env reply → Wins w s k env reply el →
      g.elog (w.nodes s).rf.currentTerm = none → ∃ Q, quorum Q ∧ ∀ z ∈ Q,
        ∃ Z, g.voted z (w.nodes s).rf.currentTerm s Z ∧ UpToDate (w.nodes s).rf.log.tail Z) :
    ∃ g', Relation.ReflTransGen (Move quorum) g g' ∧ Sim w' g' := by
  have hids : ∀ nd : Node n C σ, ∀ el ∈ nd.elects, ∃ el₀ ∈ nd.elects, el.counted = el₀.counted :=
    fun _ el hmem ↦ ⟨el, hmem, rfl⟩
  cases hstep with
  | timeoutLeader | roundIdle => exact ⟨g, .refl, h⟩
  | campaign s hnd hrole =>
      subst hnd
      refine h.campaign hI rfl ⟨List.suffix_cons _ _, fun z T hmem ↦ ?_, fun _ ↦ id,
        fun _ _ he _ ↦ he, fun _ ↦ id, fun _ _ he _ ↦ he⟩ rfl rfl
      exact (List.mem_cons.mp hmem).resolve_left (by simp)
  | electSkip s k hnd hel hnext hme =>
      subst hnd
      exact h.idle rfl (.of_eq rfl rfl rfl rfl rfl) rfl (counted_set hel rfl)
  | electSend s k hnd hel hnext hme hargs henv =>
      subst hnd henv
      obtain ⟨d, hlog, hd⟩ := hflat.log_eq s
      obtain ⟨hasks, hcand⟩ := voteArgs_asks hlog hd (hflat.lastIncludedIndex s) hargs
      exact ⟨g, .refl, h.electSend rfl rfl rfl rfl rfl rfl rfl (counted_set hel rfl)
        (hcand.trans (hpoll.me s)) hasks⟩
  | requestVote env hnd henv hv => exact h.requestVote_step hI hflat hnd henv hv
  | voteRetire s k env reply hnd hel hcall hrep hlt =>
      subst hnd
      exact h.follow rfl (.of_eq rfl rfl rfl rfl rfl) hlt rfl (counted_set hel rfl)
  | voteIgnore s k env reply hnd hel hcall hrep hle =>
      subst hnd
      exact h.idle rfl (.of_eq rfl rfl rfl rfl rfl) rfl (counted_set hel rfl)
  | voteCount s k env reply hnd hel hcall hrep hstate hterm hyes =>
      subst hnd
      have hcand := (hpoll.elects s _ (List.mem_of_getElem? hel)).calls env hcall
      refine ⟨g, .refl, h.count rfl (.of_eq rfl rfl rfl rfl rfl) rfl hel rfl (by rw [hterm]) ?_⟩
      exact h.vote_upToDate hrep hyes hcand hterm
  | voteLead s k env reply hnd hel hcall hrep hstate hterm hyes hcnt =>
      subst hnd
      have hwin : Wins w s k env reply _ := ⟨hel, hcall, hrep, hstate, hterm, hyes, hcnt⟩
      exact h.voteLead_step hI hpoll hwin rfl
        (fun z hz ↦ huniq z s _ (List.mem_cons_of_mem _ hz) List.mem_cons_self)
        (hquorum s k env reply _ rfl hwin)
  | roundSnapshot s server hnd hne hround henv =>
      subst hnd
      exact h.idle rfl (.of_eq rfl rfl rfl rfl rfl) rfl (hids _)
  | roundAppend s server hnd hne hround henv =>
      subst hnd henv
      obtain ⟨d, hlog, hd⟩ := hflat.log_eq s
      obtain ⟨p, hcarries⟩ := h.carries hI hlog hd (hflat.lastIncludedIndex s)
        (hpoll.leader s (Raft.onRound_append hround).1) hround
      exact ⟨g, .refl, h.sendAppend rfl rfl rfl rfl rfl rfl rfl rfl hcarries⟩
  | appendEntries env hnd henv hv => exact h.appendEntries_step hI hflat hnd henv hv
  | appendReply s env reply hnd hcall hrep hv hcalls =>
      exact h.appendReply_step hnd hrep hv rfl rfl
  | installSnapshot env hnd henv hv =>
      subst hnd
      have hrf := Raft.installSnapshot_rf gob (w.nodes env.dst).rf env.args
      rw [hv] at hrf
      dsimp only at hrf
      exact h.stepDown rfl (.of_eq rfl rfl rfl rfl rfl) (by rw [hrf]) (hids _)
  | snapshotReply s env reply hnd hcall hrep hcalls =>
      subst hnd
      have hzero := (hflat.of_covered (hflat.sent env (hflat.replied env reply hrep))).1
      exact h.snapshotReply_step (by rw [hzero]) rfl
  | start s command hnd =>
      subst hnd
      exact h.start_step hI hpoll command huniq
  | wakeApplier s hnd hrf hch hawake hbatch =>
      subst hnd hrf
      exact h.idle rfl (.of_eq rfl rfl rfl rfl rfl) rfl (hids _)
  | updateApplied s hnd hawake hv =>
      subst hnd
      rw [Raft.updateApplied_rf hv]
      exact h.idle rfl (.of_eq rfl rfl rfl rfl rfl) rfl (hids _)
  | sendCommand s hnd hch hbatch =>
      subst hnd
      refine h.idle rfl ⟨List.suffix_cons _ _, fun z T hmem ↦ ?_, fun _ ↦ id,
        fun _ _ he _ ↦ he, fun _ ↦ id, fun _ _ he _ ↦ he⟩ rfl (hids _)
      exact (List.mem_cons.mp hmem).resolve_left (by simp)
  | sendSnapshot s k hnd hch hmsg =>
      subst hnd
      exact h.idle rfl (.of_eq rfl rfl rfl rfl rfl) rfl (hids _)
  | serviceDone s hnd =>
      subst hnd
      exact h.idle rfl (.of_eq rfl rfl rfl rfl rfl) rfl (hids _)
  | condInstallSnapshot s hnd hch hvalid hv =>
      subst hnd
      have hle := hflat.not_installed (.condInstallSnapshot s rfl hch hvalid hv) hch
      rcases Raft.condInstallSnapshot_cases hv with ⟨rfl, _, rfl⟩ | ⟨_, hlt, _⟩
      · exact h.idle rfl (.of_eq rfl rfl rfl rfl rfl) rfl (hids _)
      · omega
  | snapshot => exact hok.elim
  | crash s hnd hmake =>
      subst hnd
      exact ⟨g, .refl, h.crash_step (hpoll.durable s) hmake⟩

theorem init : Sim (World.init : World n C σ) (Replica.start (Fin n) (Log C)) where
  nodes := by
    intro s
    refine ⟨rfl, rfl, le_refl _, ?_, ?_, ?_, ?_, ?_, fun el hel ↦ absurd hel List.not_mem_nil⟩
    -- nobody leads or stands for election
    all_goals intro h; cases h
  elected := fun s T hmem ↦ absurd hmem List.not_mem_nil
  unelected := fun T X hX ↦ absurd hX (by simp [Replica.start])
  sent := fun env henv ↦ absurd henv List.not_mem_nil
  acked := fun env reply hrep ↦ absurd hrep List.not_mem_nil
  asked := fun env henv ↦ absurd henv List.not_mem_nil
  answered := fun env reply hrep ↦ absurd hrep List.not_mem_nil

end Sim

end Lab6824
