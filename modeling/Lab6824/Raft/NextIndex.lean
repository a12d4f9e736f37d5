import Lab6824.Raft.Install
import Lab6824.Raft.Leader

/-!
# NextIndex — the next index of a peer stays inside the leader's log

A leader takes `nextIndex` of a peer from the end of its own log, from a search in it, or from the
`ConflictIndex` of a rejected request.  The last of these is the end of the follower's log when the
request starts before the follower's snapshot, and that end may lie beyond the leader's.
-/

namespace Lab6824

variable {n : Nat} {C σ : Type} {gob : Gob (RaftImage n C) σ}

namespace Raft

/-! ## Where the values come from -/

/-- The next index after a rejection: the follower's hint, or the place after an entry of the log. -/
theorem backUp_cases {rf : Raft n C σ} {reply : AppendEntriesReply} {next : Int}
    (h : rf.backUp reply = some next) :
    next = reply.conflictIndex ∨
      ∃ i : Nat, i < rf.log.length ∧ next = rf.logicIndex ((i : Int) + 1) := by
  unfold backUp at h
  split at h
  · exact Or.inl (Option.some.inj h).symm
  · split at h
    · cases h
    · rename_i i hi
      split at h
      · cases h
      · rename_i e he
        split at h
        · exact Or.inl (Option.some.inj h).symm
        · exact Or.inr ⟨i, (List.getElem?_eq_some_iff.mp he).1, (Option.some.inj h).symm⟩

/-- What a rejection that is not for staleness tells: the end of the log, when the previous entry is
past it or before the snapshot, or else a place not after the previous entry. -/
theorem appendEntries_conflict {rf rf' : Raft n C σ} {args : AppendEntriesArgs n C}
    {reply : AppendEntriesReply} (h : rf.appendEntries gob args = some (rf', reply))
    (hno : reply.success = false) (hterm : reply.term = args.term) :
    rf.currentTerm ≤ args.term ∧
      (rf.getLastLogIndex < args.prevLogIndex ∧ reply.conflictIndex = rf.getLastLogIndex + 1 ∨
        args.prevLogIndex < rf.lastIncludedIndex ∧ reply.conflictIndex = rf.getLastLogIndex + 1 ∨
        rf.lastIncludedIndex < reply.conflictIndex ∧
          reply.conflictIndex ≤ args.prevLogIndex + 1) := by
  have hct := appendStepDown_currentTerm_le gob rf args.term
  obtain ⟨hlog, hbase, _, _, _⟩ := indices_eq.mp (appendStepDown_indices gob rf args.term).2
  have hlast : (rf.appendStepDown gob args.term).getLastLogIndex = rf.getLastLogIndex := by
    rw [getLastLogIndex_eq, getLastLogIndex_eq, hlog, hbase]
  unfold appendEntries at h
  dsimp only at h
  generalize rf.appendStepDown gob args.term = rf₀ at h hct hlog hbase hlast
  split at h
  · -- stale: the reply carries a higher term
    rename_i hstale
    simp only [Option.some.injEq, Prod.mk.injEq] at h
    rw [← h.2] at hterm
    dsimp only at hterm
    omega
  · rename_i hfresh
    refine ⟨hct.mp (by omega), ?_⟩
    split at h
    · -- the first two answers: the previous entry is past the end, or compacted away
      rename_i hout
      simp only [Option.some.injEq, Prod.mk.injEq] at h
      rw [← h.2]
      dsimp only
      rw [hlast] at hout ⊢
      unfold realIndex at hout
      rcases hout with hgt | hneg
      · exact Or.inl ⟨hgt, rfl⟩
      · exact Or.inr (Or.inl ⟨by omega, rfl⟩)
    · rename_i hin
      split at h
      · cases h
      · split at h
        · split at h
          · cases h
          · -- the search for the start of the term goes down from the previous entry
            rename_i i hi
            simp only [Option.some.injEq, Prod.mk.injEq] at h
            have hle := conflictStart_le hi
            rw [← h.2]
            dsimp only
            unfold logicIndex
            unfold realIndex at hin hle
            omega
        · simp only [Option.some.injEq, Prod.mk.injEq] at h
          rw [← h.2] at hno
          cases hno

/-- A reply moves the next index of the server it comes from: to the end of the leader's log, or back
to where the rejection points. -/
theorem handleAppendEntriesReply_next {rf rf' : Raft n C σ} {args : AppendEntriesArgs n C}
    {reply : AppendEntriesReply} {server : Fin n}
    (h : rf.handleAppendEntriesReply gob args reply server = some rf') :
    rf'.nextIndex = rf.nextIndex ∨
      rf.Leads reply.sendTerm ∧ reply.term ≤ rf.currentTerm ∧
        ∃ next, rf'.nextIndex = Function.update rf.nextIndex server next ∧
          (next = rf.getLastLogIndex + 1 ∨ reply.success = false ∧ rf.backUp reply = some next) := by
  unfold handleAppendEntriesReply at h
  dsimp only at h
  rcases stepDown_cases gob rf reply.term with ⟨hlt, he⟩ | ⟨hle, he⟩
  · -- a server that steps down is no leader
    left
    rw [he, if_pos (Or.inl (by exact Role.noConfusion))] at h
    rw [← Option.some.inj h]
    rfl
  · rw [he] at h
    split at h
    · rw [← Option.some.inj h]
      exact Or.inl rfl
    · rename_i hlead
      push Not at hlead
      right
      refine ⟨⟨hlead.1, hlead.2.symm⟩, hle, ?_⟩
      split at h
      · refine ⟨rf.logicIndex rf.log.length, ?_, Or.inl ?_⟩
        · rw [← Option.some.inj h]
          unfold recordMatch advanceCommit
          dsimp only
          split
          · split <;> rfl
          · rfl
        · rw [getLastLogIndex_eq, logicIndex]
          omega
      · rename_i hno
        split at h
        · cases h
        · rename_i next hnext
          rw [← Option.some.inj h]
          exact ⟨next, rfl, Or.inr ⟨Bool.not_eq_true _ ▸ hno, hnext⟩⟩

end Raft

/-! ## What a step does to the next indices of one server -/

/-- What step `a` does to server `t`, which it leaves with `rf'`. -/
inductive NextStep (w : World n C σ) (a : Action n C σ) (t : Fin n) (rf' : Raft n C σ) : Prop where
  | same (hrole : rf'.state = .leader → (w.nodes t).rf.state = .leader)
      (h : rf'.nextIndex = (w.nodes t).rf.nextIndex)
  | retired (h : rf'.state ≠ .leader)
  | elected (h : rf' = (w.nodes t).rf.toLeader)
  | moved (server : Fin n) (next : Int) (hrole : rf'.state = .leader → (w.nodes t).rf.state = .leader)
      (h : rf'.nextIndex = Function.update (w.nodes t).rf.nextIndex server next)
      (hnext : next = (w.nodes t).rf.getLastLogIndex + 1)
  | backed (env : Envelope n (AppendEntriesArgs n C)) (reply : AppendEntriesReply) (next : Int)
      (hcall : env ∈ (w.nodes t).appendCalls) (hrep : (env, reply) ∈ w.appendReps)
      (hlead : (w.nodes t).rf.Leads env.args.term)
      (hterm : reply.term ≤ (w.nodes t).rf.currentTerm) (hno : reply.success = false)
      (h : rf'.nextIndex = Function.update (w.nodes t).rf.nextIndex env.dst next)
      (hnext : next = reply.conflictIndex ∨
        ∃ i : Nat, i < (w.nodes t).rf.log.length ∧
          next = (w.nodes t).rf.logicIndex ((i : Int) + 1))

theorem step_next {w w' : World n C σ} {a : Action n C σ} (hstep : Step gob w a w')
    (hdur : ∀ s, Durable gob (w.nodes s).rf) (t : Fin n) : NextStep w a t (w'.nodes t).rf := by
  cases step_peers hstep hdur t with
  | same hrole h => exact .same hrole (congrArg Prod.fst h)
  | retired h => exact .retired h
  | elected h => exact .elected h
  | replied env reply hcall hrep hv =>
      have hrole := (stepDown_peers gob (w.nodes t).rf reply.term).1
      obtain ⟨_, _, _, _, hfields⟩ := Raft.handleAppendEntriesReply_cases hv
      rcases Raft.handleAppendEntriesReply_next hv with
        hsame | ⟨hlead, hterm, next, hnext, hlast | ⟨hno, hback⟩⟩
      · refine .same ?_ hsame
        rw [hfields]
        exact hrole
      · exact .moved env.dst next (fun _ ↦ hlead.1) hnext hlast
      · exact .backed env reply next hcall hrep hlead hterm hno hnext (Raft.backUp_cases hback)
  | counted env reply ha h =>
      rw [h]
      unfold Raft.handleSnapshotReply
      split
      · exact .same Role.noConfusion rfl
      · exact .moved env.dst _ id rfl rfl

/-! ## The condition and what holds in every run that meets it -/

/-- When a request that starts before the snapshot of its receiver is not found stale, and its sender
still leads its term, the receiver's log does not go beyond the sender's. -/
def TailsCovered (w : World n C σ) : Action n C σ → Prop
  | .appendEntries env =>
    (w.nodes env.dst).rf.currentTerm ≤ env.args.term →
      env.args.prevLogIndex < (w.nodes env.dst).rf.lastIncludedIndex →
      (w.nodes env.args.leaderId).rf.Leads env.args.term →
        (w.nodes env.dst).rf.getLastLogIndex ≤ (w.nodes env.args.leaderId).rf.getLastLogIndex
  | _ => True

instance (w : World n C σ) (a : Action n C σ) : Decidable (TailsCovered w a) := by
  unfold TailsCovered
  induction a using Action.casesOn <;> infer_instance

/-- The next indices of the leaders, and the hints on their way to a leader, are inside its log. -/
structure NextInv (gob : Gob (RaftImage n C) σ) (w : World n C σ) : Prop extends
    LeaderInv gob w where
  base : ∀ s, 0 ≤ (w.nodes s).rf.lastIncludedIndex
  next : ∀ s p, p ≠ s → (w.nodes s).rf.state = .leader →
    1 ≤ (w.nodes s).rf.nextIndex p ∧
      (w.nodes s).rf.nextIndex p ≤ (w.nodes s).rf.getLastLogIndex + 1
  replied : ∀ env reply, (env, reply) ∈ w.appendReps →
    env ∈ w.appendReqs ∧ env.args.term ≤ reply.term
  hints : ∀ env reply, (env, reply) ∈ w.appendReps → reply.success = false →
    reply.term = env.args.term → (w.nodes env.args.leaderId).rf.Leads env.args.term →
      1 ≤ reply.conflictIndex ∧
        reply.conflictIndex ≤ (w.nodes env.args.leaderId).rf.getLastLogIndex + 1

namespace NextInv

theorem init : NextInv gob (World.init : World n C σ) where
  toLeaderInv := LeaderInv.init
  base := fun _ ↦ le_refl _
  next := by
    intro s p _ hs
    cases hs
  replied := by
    intro env reply hrep
    cases hrep
  hints := by
    intro env reply hrep
    cases hrep

variable {w w' : World n C σ} {a : Action n C σ}

theorem last_nonneg (h : NextInv gob w) (s : Fin n) : 0 ≤ (w.nodes s).rf.getLastLogIndex := by
  have hlen := List.length_pos_iff.mpr (h.durable s).log_ne_nil
  have hbase := h.base s
  rw [Raft.getLastLogIndex_eq]
  omega

theorem next_step (h : NextInv gob w) (hok : NoRival w a) (hstep : Step gob w a w') {s p : Fin n}
    (hp : p ≠ s) (hlead : (w'.nodes s).rf.state = .leader) :
    1 ≤ (w'.nodes s).rf.nextIndex p ∧
      (w'.nodes s).rf.nextIndex p ≤ (w'.nodes s).rf.getLastLogIndex + 1 := by
  have hindex := step_indices hstep h.durable s
  have hpos := h.last_nonneg s
  -- a server that was leader before has not lost the end of its log
  have hkeep : (w.nodes s).rf.state = .leader →
      (w.nodes s).rf.getLastLogIndex ≤ (w'.nodes s).rf.getLastLogIndex := by
    intro hrole
    rcases step_leads h.toBallotInv hstep ⟨hlead, rfl⟩ with hbefore | ⟨hcand, _⟩
    · exact hindex.last_le hok hbefore ⟨hlead, rfl⟩
    · rw [hrole] at hcand
      cases hcand
  cases step_next hstep h.durable s with
  | same hrole hnext =>
      rw [hnext]
      have hle := hkeep (hrole hlead)
      obtain ⟨hlo, hhi⟩ := h.next s p hp (hrole hlead)
      exact ⟨hlo, by omega⟩
  | retired hno => exact absurd hlead hno
  | elected he =>
      have hnext : (w'.nodes s).rf.nextIndex p = (w.nodes s).rf.getLastLogIndex + 1 := by
        rw [he, Raft.getLastLogIndex_eq]
        show (w.nodes s).rf.logicIndex (w.nodes s).rf.log.length = _
        unfold Raft.logicIndex
        omega
      have hlast : (w'.nodes s).rf.getLastLogIndex = (w.nodes s).rf.getLastLogIndex := by
        rw [he]
        rfl
      omega
  | moved server next hrole hupdate hnext =>
      have hle := hkeep (hrole hlead)
      obtain ⟨hlo, hhi⟩ := h.next s p hp (hrole hlead)
      rw [hupdate]
      by_cases hps : p = server
      · subst hps
        rw [Function.update_self]
        omega
      · rw [Function.update_of_ne hps]
        omega
  | backed env reply next hcall hrep hleads hterm hno hupdate hnext =>
      have hle := hkeep hleads.1
      obtain ⟨hlo, hhi⟩ := h.next s p hp hleads.1
      rw [hupdate]
      by_cases hps : p = env.dst
      · subst hps
        rw [Function.update_self]
        rcases hnext with rfl | ⟨i, hi, rfl⟩
        · -- the hint of a reply of the leader's own term
          obtain ⟨_, hge⟩ := h.replied env reply hrep
          have hid := (h.calls s env hcall).2
          have hhint := h.hints env reply hrep hno (le_antisymm (hleads.2 ▸ hterm) hge)
          rw [hid] at hhint
          obtain ⟨hlo', hhi'⟩ := hhint hleads
          exact ⟨hlo', by omega⟩
        · have hbase := h.base s
          rw [Raft.getLastLogIndex_eq] at hle
          unfold Raft.logicIndex
          omega
      · rw [Function.update_of_ne hps]
        omega

theorem hints_step (h : NextInv gob w) (hok : NoRival w a) (hcov : TailsCovered w a)
    (hstep : Step gob w a w') {env : Envelope n (AppendEntriesArgs n C)}
    {reply : AppendEntriesReply} (hrep : (env, reply) ∈ w'.appendReps)
    (hno : reply.success = false) (hterm : reply.term = env.args.term)
    (hlead : (w'.nodes env.args.leaderId).rf.Leads env.args.term) :
    1 ≤ reply.conflictIndex ∧
      reply.conflictIndex ≤ (w'.nodes env.args.leaderId).rf.getLastLogIndex + 1 := by
  have hindex := step_indices hstep h.durable env.args.leaderId
  rcases step_appendReps hstep hrep with hold | ⟨rfl, henv, hv⟩
  · have hlead₀ := LeaderInv.leads_before h.toPollInv hstep (h.replied env reply hold).1 hlead
    have hle := hindex.last_le hok hlead₀ hlead
    obtain ⟨hlo, hhi⟩ := h.hints env reply hold hno hterm hlead₀
    exact ⟨hlo, by omega⟩
  · have hlead₀ := LeaderInv.leads_before h.toPollInv hstep henv hlead
    have hle := hindex.last_le hok hlead₀ hlead
    have hsent := h.requests env henv hlead₀
    have hpos := h.last_nonneg env.dst
    have hbase := h.base env.dst
    unfold AppendEntriesArgs.lastIndex at hsent
    obtain ⟨hfresh, ⟨hgt, hci⟩ | ⟨hlt, hci⟩ | ⟨hlo, hhi⟩⟩ :=
      Raft.appendEntries_conflict hv hno hterm
    · omega
    · -- the follower hints at the end of its own log, which the leader's has to cover
      have hcovered := hcov hfresh hlt hlead₀
      omega
    · omega

theorem step (h : NextInv gob w) (hok : NoRival w a) (hcov : TailsCovered w a)
    (hstep : Step gob w a w') : NextInv gob w' where
  toLeaderInv := h.toLeaderInv.step hok hstep
  base := fun s ↦ (h.base s).trans (step_indices hstep h.durable s).base_le
  next := fun _ _ hp hlead ↦ h.next_step hok hstep hp hlead
  replied := by
    intro env reply hrep
    rcases step_appendReps hstep hrep with hold | ⟨_, henv, hv⟩
    · obtain ⟨henv, hge⟩ := h.replied env reply hold
      exact ⟨World.appendReqs_mono hstep henv, hge⟩
    · refine ⟨World.appendReqs_mono hstep henv, ?_⟩
      rw [(Raft.appendEntries_cases hv).1]
      exact Raft.le_appendStepDown_currentTerm gob _ _
  hints := fun _ _ hrep hno hterm hlead ↦ h.hints_step hok hcov hstep hrep hno hterm hlead

end NextInv

/-- In a run in which no `AppendEntries` of its own term reaches a leader and no follower answers a
request from before its snapshot with a log that goes beyond the leader's, the next index of every
peer lies in the leader's log or right after it, and a round finds the previous entry in the log
unless it sends a snapshot. -/
theorem next_index_in_log [DecidableEq C] [DecidableEq σ] {gob : Gob (RaftImage n C) σ}
    {w : World n C σ} {as : List (Action n C σ)}
    (hok : Lib.Along (World.step gob) (fun v a ↦ NoRival v a ∧ TailsCovered v a) World.init as)
    (hrun : Lib.run (World.step gob) World.init as = some w) {s p : Fin n} (hp : p ≠ s)
    (hlead : (w.nodes s).rf.state = .leader) :
    (1 ≤ (w.nodes s).rf.nextIndex p ∧
        (w.nodes s).rf.nextIndex p ≤ (w.nodes s).rf.getLastLogIndex + 1) ∧
      ((w.nodes s).rf.nextIndex p - 1 < (w.nodes s).rf.lastIncludedIndex ∨
        0 ≤ (w.nodes s).rf.realIndex ((w.nodes s).rf.nextIndex p - 1) ∧
          (w.nodes s).rf.realIndex ((w.nodes s).rf.nextIndex p - 1) < (w.nodes s).rf.log.length) := by
  have hinv : NextInv gob w :=
    Lib.run_invariant (fun _ _ _ h hok hstep ↦ h.step hok.1 hok.2 (World.step_inv hstep))
      NextInv.init hok hrun
  have hnext := hinv.next s p hp hlead
  refine ⟨hnext, ?_⟩
  rw [Raft.getLastLogIndex_eq] at hnext
  unfold Raft.realIndex
  omega

/-- After `tailRun` server 2 installs the snapshot and keeps its entry at index 2; then the request
that server 0 had sent before it compacted its log arrives, and its rejection points to index 3. -/
def hintRun : List (Action 3 Nat (RaftImage 3 Nat)) :=
  let append : Envelope 3 (AppendEntriesArgs 3 Nat) := ⟨3, 2, ⟨2, 0, 0, 0, [⟨some 7, 2⟩], 0⟩⟩
  tailRun ++
    [ .condInstallSnapshot 2, .appendEntries append,
      .appendReply 0 append { term := 2, conflictTerm := -1, conflictIndex := 3 } ]

/-- The leader's log ends at index 1, and its next round for server 2 panics. -/
theorem next_index_beyond_log :
    ∃ w, Lib.run (World.step (Gob.plain (RaftImage 3 Nat))) World.init hintRun = some w ∧
      (w.nodes 0).rf.state = .leader ∧ (w.nodes 0).rf.nextIndex 2 = 3 ∧
      (w.nodes 0).rf.getLastLogIndex = 1 ∧ (w.nodes 0).rf.lastIncludedIndex = 1 ∧
      (w.nodes 0).rf.realIndex ((w.nodes 0).rf.nextIndex 2 - 1) = (w.nodes 0).rf.log.length ∧
      ((w.nodes 0).rf.onRound 2).isNone := by
  have hcheck : (Lib.run (World.step (Gob.plain (RaftImage 3 Nat))) World.init hintRun).any
      (fun w ↦ decide ((w.nodes 0).rf.state = .leader ∧ (w.nodes 0).rf.nextIndex 2 = 3 ∧
        (w.nodes 0).rf.getLastLogIndex = 1 ∧ (w.nodes 0).rf.lastIncludedIndex = 1 ∧
        (w.nodes 0).rf.realIndex ((w.nodes 0).rf.nextIndex 2 - 1) = (w.nodes 0).rf.log.length ∧
        ((w.nodes 0).rf.onRound 2).isNone)) = true := by
    decide +kernel
  obtain ⟨w, hrun, hw⟩ := Lib.exists_run_of_any hcheck
  exact ⟨w, hrun, of_decide_eq_true hw⟩

/-- In `installRun` the leader has compacted its log and sends the snapshot to server 2. -/
theorem next_index_in_log_installRun :
    ∃ w, Lib.run (World.step (Gob.plain (RaftImage 3 Nat))) World.init installRun = some w ∧
      (w.nodes 0).rf.state = .leader ∧ (w.nodes 0).rf.lastIncludedIndex = 1 ∧
      1 ≤ (w.nodes 0).rf.nextIndex 2 ∧
      (w.nodes 0).rf.nextIndex 2 ≤ (w.nodes 0).rf.getLastLogIndex + 1 := by
  have hcheck : (Lib.run (World.step (Gob.plain (RaftImage 3 Nat))) World.init installRun).any
      (fun w ↦ decide ((w.nodes 0).rf.state = .leader ∧
        (w.nodes 0).rf.lastIncludedIndex = 1)) = true := by
    decide +kernel
  have hok : Lib.Along (World.step (Gob.plain (RaftImage 3 Nat)))
      (fun v a ↦ NoRival v a ∧ TailsCovered v a) World.init installRun := by
    decide +kernel
  obtain ⟨w, hrun, hw⟩ := Lib.exists_run_of_any hcheck
  obtain ⟨hlead, hbase⟩ := of_decide_eq_true hw
  have hp : (2 : Fin 3) ≠ 0 := by decide
  exact ⟨w, hrun, hlead, hbase, (next_index_in_log hok hrun hp hlead).1⟩

end Lab6824
