import Lab6824.Raft.Durable

/-!
# Boundary — the snapshot boundary of a server

A server keeps four things about the point up to which its log has been compacted:
`lastIncludedIndex`, `lastIncludedTerm`, the term of the dummy entry and the snapshot in its
persister.  `step_boundary` says what a step can do to them; durability before release and the fate
of the boundary term follow from it.
-/

namespace Lab6824

variable {n : Nat} {C σ : Type} {gob : Gob (RaftImage n C) σ}

/-- `log[0].Term`. -/
def Raft.dummyTerm (rf : Raft n C σ) : Option Int :=
  rf.log.head?.map Log.term

structure SameBoundary (rf rf' : Raft n C σ) : Prop where
  index : rf'.lastIncludedIndex = rf.lastIncludedIndex
  term : rf'.lastIncludedTerm = rf.lastIncludedTerm
  dummy : rf'.dummyTerm = rf.dummyTerm
  snapshot : rf'.persister.snapshot = rf.persister.snapshot

/-- Index and bytes of the snapshot that server `s` saved last. -/
def lastSnapshot (s : Fin n) : List (Event n C σ) → Int × List σ
  | [] => (0, [])
  | .taken s' index _ data :: tr => if s' = s then (index, data) else lastSnapshot s tr
  | .installed s' index _ data :: tr => if s' = s then (index, data) else lastSnapshot s tr
  | _ :: tr => lastSnapshot s tr

namespace SameBoundary

theorem refl (rf : Raft n C σ) : SameBoundary rf rf := ⟨rfl, rfl, rfl, rfl⟩

theorem trans {rf rf₁ rf₂ : Raft n C σ} (h₁ : SameBoundary rf rf₁) (h₂ : SameBoundary rf₁ rf₂) :
    SameBoundary rf rf₂ :=
  ⟨h₂.index.trans h₁.index, h₂.term.trans h₁.term, h₂.dummy.trans h₁.dummy,
    h₂.snapshot.trans h₁.snapshot⟩

theorem toFollower (gob : Gob (RaftImage n C) σ) (rf : Raft n C σ) (term : Int) (v : Option (Fin n)) :
    SameBoundary rf (rf.toFollower gob term v) := ⟨rfl, rfl, rfl, rfl⟩

theorem stepDown (gob : Gob (RaftImage n C) σ) (rf : Raft n C σ) (term : Int) :
    SameBoundary rf (rf.stepDown gob term) := by
  rcases Raft.stepDown_cases gob rf term with ⟨_, he⟩ | ⟨_, he⟩
  · rw [he]
    exact toFollower gob rf term none
  · rw [he]
    exact refl rf

theorem appendStepDown (gob : Gob (RaftImage n C) σ) (rf : Raft n C σ) (term : Int) :
    SameBoundary rf (rf.appendStepDown gob term) := by
  rcases Raft.appendStepDown_cases gob rf term with ⟨_, he⟩ | ⟨_, _, he⟩
  · rw [he]
    exact toFollower gob rf term none
  · rw [he]
    exact refl rf

/-- The merge keeps the entries up to the previous one, and with them the dummy. -/
theorem mergeEntries {rf : Raft n C σ} (hlog : rf.log ≠ []) (args : AppendEntriesArgs n C)
    (pli : Nat) : SameBoundary rf (rf.mergeEntries gob args pli) := by
  obtain ⟨rf₁, ci, ch, he, hrf⟩ := Raft.mergeEntries_cases gob rf args pli
  rw [he]
  rcases hrf with rfl | rfl
  · exact ⟨rfl, rfl, rfl, rfl⟩
  · refine ⟨rfl, rfl, ?_, rfl⟩
    change ((rf.log.take (pli + 1) ++ args.entries).head?).map Log.term = rf.log.head?.map Log.term
    cases hl : rf.log with
    | nil => exact absurd hl hlog
    | cons d es => rfl

theorem requestVote {rf rf' : Raft n C σ} {args : RequestVoteArgs n} {reply : RequestVoteReply}
    (h : rf.requestVote gob args = some (rf', reply)) : SameBoundary rf rf' := by
  rcases Raft.requestVote_cases h with ⟨_, rfl⟩ | ⟨_, _, _, _, rfl⟩
  · exact stepDown gob rf args.term
  · exact (stepDown gob rf args.term).trans ⟨rfl, rfl, rfl, rfl⟩

theorem appendEntries {rf rf' : Raft n C σ} {args : AppendEntriesArgs n C}
    {reply : AppendEntriesReply} (h : rf.appendEntries gob args = some (rf', reply)) :
    SameBoundary rf rf' := by
  rcases (Raft.appendEntries_cases h).2 with ⟨_, rfl⟩ | ⟨_, _, pli, prev, _, hprev, _, rfl⟩
  · exact appendStepDown gob rf args.term
  · refine (appendStepDown gob rf args.term).trans (mergeEntries ?_ args pli)
    intro hnil
    rw [hnil] at hprev
    cases hprev

theorem handleAppendEntriesReply {rf rf' : Raft n C σ} {args : AppendEntriesArgs n C}
    {reply : AppendEntriesReply} {server : Fin n}
    (h : rf.handleAppendEntriesReply gob args reply server = some rf') : SameBoundary rf rf' := by
  obtain ⟨ni, mi, ci, ch, rfl⟩ := Raft.handleAppendEntriesReply_cases h
  exact (stepDown gob rf reply.term).trans ⟨rfl, rfl, rfl, rfl⟩

theorem handleSnapshotReply (gob : Gob (RaftImage n C) σ) (rf : Raft n C σ) (index : Int)
    (reply : InstallSnapshotReply) (server : Fin n) :
    SameBoundary rf (rf.handleSnapshotReply gob index reply server) := by
  unfold Raft.handleSnapshotReply
  split
  · exact toFollower gob rf reply.term none
  · exact ⟨rfl, rfl, rfl, rfl⟩

theorem start {rf : Raft n C σ} (hlog : rf.log ≠ []) (command : Option C) :
    SameBoundary rf (rf.start gob command).1 := by
  unfold Raft.start
  split
  · refine ⟨rfl, rfl, ?_, rfl⟩
    change ((rf.log ++ [_]).head?).map Log.term = rf.log.head?.map Log.term
    rw [List.head?_append_of_ne_nil _ hlog]
  · exact refl rf

end SameBoundary

/-! ## What a step does to the boundary -/

/-- The four ways a step can treat the boundary of server `t`. -/
inductive BoundaryStep (w : World n C σ) (a : Action n C σ) (w' : World n C σ) (t : Fin n) :
    Prop where
  | same (h : SameBoundary (w.nodes t).rf (w'.nodes t).rf)
      (htr : lastSnapshot t w'.trace = lastSnapshot t w.trace)
  | installed {msg : ApplyMsg C σ} (ha : a = .condInstallSnapshot t)
      (hch : (w.nodes t).applyCh = some msg) (hvalid : msg.snapshotValid = true)
      (hnew : (w.nodes t).rf.commitIndex < msg.snapshotIndex)
      (hindex : (w'.nodes t).rf.lastIncludedIndex = msg.snapshotIndex)
      (hterm : (w'.nodes t).rf.lastIncludedTerm = (w.nodes t).rf.lastIncludedTerm)
      (hdummy : (w'.nodes t).rf.dummyTerm = some msg.snapshotTerm)
      (hsnapshot : (w'.nodes t).rf.persister.snapshot = msg.snapshot)
      (htr : w'.trace =
        .installed t msg.snapshotIndex msg.snapshotTerm msg.snapshot :: w.trace)
  | taken {index : Int} {data : List σ} {e : Log C} (ha : a = .snapshot t index data)
      (hentry : (w.nodes t).rf.entryAt index = some e)
      (hindex : (w'.nodes t).rf.lastIncludedIndex = index)
      (hterm : (w'.nodes t).rf.lastIncludedTerm = e.term)
      (hdummy : (w'.nodes t).rf.dummyTerm = some e.term)
      (hsnapshot : (w'.nodes t).rf.persister.snapshot = data)
      (htr : w'.trace = .taken t index e.term data :: w.trace)
  | restarted (ha : a = .crash t) (h : Restored t (w.nodes t).rf (w'.nodes t).rf)
      (htr : w'.trace = w.trace)

/-- A section that keeps the boundary of the server it runs on keeps that of all servers. -/
theorem sameBoundary_update {w : World n C σ} {s : Fin n} {nd : Node n C σ}
    (h : SameBoundary (w.nodes s).rf nd.rf) (t : Fin n) :
    SameBoundary (w.nodes t).rf (Function.update w.nodes s nd t).rf := by
  refine (Function.forall_update_iff w.nodes fun t nd ↦
    SameBoundary (w.nodes t).rf nd.rf).mpr ⟨h, ?_⟩ t
  intro t _
  exact SameBoundary.refl _

theorem step_boundary {w w' : World n C σ} {a : Action n C σ} (h : Step gob w a w')
    (hd : ∀ t, Durable gob (w.nodes t).rf) (t : Fin n) : BoundaryStep w a w' t := by
  cases h with
  | timeoutLeader s h => exact .same (SameBoundary.refl _) rfl
  | roundIdle s server => exact .same (SameBoundary.refl _) rfl
  | requestVote env hnd henv h =>
      subst hnd
      refine .same (sameBoundary_update (by exact SameBoundary.requestVote h) t) ?_
      dsimp only
      split <;> rfl
  | voteRetire s k env reply hnd hel hcall hrep hlt =>
      subst hnd
      exact .same (sameBoundary_update (by exact SameBoundary.toFollower gob _ _ _) t) rfl
  | appendEntries env hnd henv h =>
      subst hnd
      exact .same (sameBoundary_update (by exact SameBoundary.appendEntries h) t) rfl
  | appendReply s env reply hnd hcall hrep h hcalls =>
      subst hnd
      exact .same (sameBoundary_update (by exact SameBoundary.handleAppendEntriesReply h) t) rfl
  | installSnapshot env hnd henv h =>
      subst hnd
      have hrf := Raft.installSnapshot_rf gob (w.nodes env.dst).rf env.args
      rw [h] at hrf
      dsimp only at hrf
      subst hrf
      exact .same (sameBoundary_update (by exact SameBoundary.stepDown gob _ _) t) rfl
  | snapshotReply s env reply hnd hcall hrep hcalls =>
      subst hnd
      exact .same (sameBoundary_update (by exact SameBoundary.handleSnapshotReply gob _ _ _ _) t)
        rfl
  | start s command hnd =>
      subst hnd
      exact .same
        (sameBoundary_update (by exact SameBoundary.start (hd s).log_ne_nil command) t) rfl
  | updateApplied s hnd hawake h =>
      subst hnd
      rw [Raft.updateApplied_rf h]
      exact .same (sameBoundary_update (by exact ⟨rfl, rfl, rfl, rfl⟩) t) rfl
  | @condInstallSnapshot s nd msg rf accepted hnd hch hvalid h =>
      subst hnd
      rcases Raft.condInstallSnapshot_cases h with
        ⟨rfl, _, rfl⟩ | ⟨rfl, hnew, rest, rf₁, rfl, rfl⟩
      · exact .same (sameBoundary_update (by exact SameBoundary.refl _) t) rfl
      · by_cases hts : t = s
        · subst hts
          refine .installed rfl hch hvalid hnew ?_ ?_ ?_ ?_ rfl <;>
            simp [Raft.dummyTerm]
        · refine .same ?_ ?_
          · simp only [Function.update_of_ne hts]
            exact SameBoundary.refl _
          · simp only [if_true, lastSnapshot, if_neg (Ne.symm hts)]
  | @snapshot s index data nd rf stored hnd h =>
      subst hnd
      rcases Raft.snapshot_cases h with ⟨rfl, _, rfl⟩ | ⟨rfl, _, d, rest, rf₁, hat, _, rfl, rfl⟩
      · exact .same (sameBoundary_update (by exact SameBoundary.refl _) t) rfl
      · have hentry : (w.nodes s).rf.entryAt index = some d := hat
        by_cases hts : t = s
        · subst hts
          refine .taken rfl hentry ?_ ?_ ?_ ?_ ?_ <;> simp [Raft.dummyTerm, noteTaken, hentry]
        · refine .same ?_ ?_
          · simp only [Function.update_of_ne hts]
            exact SameBoundary.refl _
          · simp only [noteTaken, hentry, lastSnapshot, if_neg (Ne.symm hts)]
  | @crash s nd rf hnd h =>
      subst hnd
      obtain ⟨rf', hmake, hres, _⟩ := (hd s).make s
      rw [h, Option.some.injEq] at hmake
      subst hmake
      by_cases hts : t = s
      · subst hts
        refine .restarted rfl ?_ rfl
        simp only [Function.update_self]
        exact hres
      · refine .same ?_ rfl
        simp only [Function.update_of_ne hts]
        exact SameBoundary.refl _
  | wakeApplier s hnd hrf hch hawake hbatch =>
      subst hnd hrf
      exact .same (sameBoundary_update (by exact ⟨rfl, rfl, rfl, rfl⟩) t) rfl
  | campaign _ hnd _ | voteLead _ _ _ _ hnd _ _ _ _ _ _ _ | electSkip _ _ hnd _ _ _
  | electSend _ _ hnd _ _ _ _ _ | voteIgnore _ _ _ _ hnd _ _ _ _
  | voteCount _ _ _ _ hnd _ _ _ _ _ _ | roundSnapshot _ _ hnd _ _ _ | roundAppend _ _ hnd _ _ _
  | sendCommand _ hnd _ _ | sendSnapshot _ _ hnd _ _ | serviceDone _ hnd =>
      subst hnd
      exact .same (sameBoundary_update (by exact ⟨rfl, rfl, rfl, rfl⟩) t) rfl

/-! ## Durability before release -/

/-- Storage agrees with memory, and every snapshot is kept and sent with the index it was saved
for. -/
structure StorageInv (gob : Gob (RaftImage n C) σ) (w : World n C σ) : Prop where
  durable : ∀ t, Durable gob (w.nodes t).rf
  me : ∀ t, (w.nodes t).rf.me = t
  saved : ∀ t, lastSnapshot t w.trace =
    ((w.nodes t).rf.lastIncludedIndex, (w.nodes t).rf.persister.snapshot)
  sent : ∀ env ∈ w.snapshotReqs, ∃ tr, tr <:+ w.trace ∧
    lastSnapshot env.args.leaderId tr = (env.args.lastIncludedIndex, env.args.data)

namespace StorageInv

theorem init : StorageInv gob (World.init : World n C σ) where
  durable := Durable.fresh
  me := fun _ ↦ rfl
  saved := fun _ ↦ rfl
  sent := by
    intro env henv
    cases henv

/-- A new `InstallSnapshot` request carries what the persister of its sender holds. -/
theorem sent_step {w w' : World n C σ} {a : Action n C σ} (h : StorageInv gob w)
    (hstep : Step gob w a w') {env : Envelope n (InstallSnapshotArgs n σ)}
    (henv : env ∈ w'.snapshotReqs) :
    env ∈ w.snapshotReqs ∨
      ∃ s, (w.nodes s).rf.state = .leader ∧ env.args =
        { term := (w.nodes s).rf.currentTerm
          leaderId := s
          lastIncludedIndex := (w.nodes s).rf.lastIncludedIndex
          lastIncludedTerm := (w.nodes s).rf.lastIncludedTerm
          data := (w.nodes s).rf.persister.snapshot } := by
  cases hstep with
  | roundSnapshot s server hnd hne hround henv' =>
      subst hnd
      rcases List.mem_cons.mp henv with heq | hold
      · right
        obtain ⟨hlead, _, hargs⟩ := Raft.onRound_snapshot hround
        rw [h.me s] at hargs
        refine ⟨s, hlead, ?_⟩
        rw [heq, henv']
        exact hargs
      · exact Or.inl hold
  | _ => exact Or.inl henv

theorem step {w w' : World n C σ} {a : Action n C σ} (h : StorageInv gob w)
    (hstep : Step gob w a w') : StorageInv gob w' where
  durable := fun t ↦ (h.durable t).lockSection (World.step_lockSection hstep t)
  me := fun t ↦ World.lockSection_me (h.me t) (World.step_lockSection hstep t)
  saved := by
    intro t
    cases step_boundary hstep h.durable t with
    | same hsame htr => rw [htr, h.saved t, hsame.index, hsame.snapshot]
    | installed ha hch hvalid hnew hindex hterm hdummy hsnapshot htr =>
        rw [htr, hindex, hsnapshot]
        simp only [lastSnapshot, if_true]
    | taken ha hentry hindex hterm hdummy hsnapshot htr =>
        rw [htr, hindex, hsnapshot]
        simp only [lastSnapshot, if_true]
    | restarted ha hres htr =>
        rw [htr, h.saved t, hres.lastIncludedIndex, hres.persister]
  sent := by
    intro env henv
    have hsuffix := World.step_trace hstep
    rcases h.sent_step hstep henv with hold | ⟨s, _, hargs⟩
    · obtain ⟨tr, htr, heq⟩ := h.sent env hold
      exact ⟨tr, htr.trans hsuffix, heq⟩
    · refine ⟨w.trace, hsuffix, ?_⟩
      rw [hargs]
      exact h.saved s

theorem run [DecidableEq C] [DecidableEq σ] {w : World n C σ} {as : List (Action n C σ)}
    (hrun : Lib.run (World.step gob) World.init as = some w) : StorageInv gob w :=
  Lib.run_invariant (fun _ _ _ h _ hstep ↦ h.step (World.step_inv hstep)) init
    (Lib.along_true _ as) hrun

end StorageInv

/-- In every state that a run reaches, restarting a server from a copy of its persister gives back
its term, its vote, its snapshot boundary and the entries after the dummy, so that a crash loses
nothing the server has answered; the snapshot in the persister is the one of the call that set
`lastIncludedIndex`; and every `InstallSnapshot` pairs its data with the index the sender had saved
it for. -/
theorem durable_before_release [DecidableEq C] [DecidableEq σ] {gob : Gob (RaftImage n C) σ}
    {w : World n C σ} {as : List (Action n C σ)}
    (hrun : Lib.run (World.step gob) World.init as = some w) (s : Fin n) :
    (∃ rf', Raft.make gob s (w.nodes s).rf.persister.copy = some rf' ∧
        rf'.currentTerm = (w.nodes s).rf.currentTerm ∧
        rf'.votedFor = (w.nodes s).rf.votedFor ∧
        rf'.lastIncludedIndex = (w.nodes s).rf.lastIncludedIndex ∧
        rf'.lastIncludedTerm = (w.nodes s).rf.lastIncludedTerm ∧
        rf'.log.tail = (w.nodes s).rf.log.tail ∧
        w.step gob (.crash s) =
          some { w with nodes := Function.update w.nodes s { rf := rf' } }) ∧
      lastSnapshot s w.trace =
        ((w.nodes s).rf.lastIncludedIndex, (w.nodes s).rf.persister.snapshot) ∧
      ∀ env ∈ w.snapshotReqs, ∃ tr, tr <:+ w.trace ∧
        lastSnapshot env.args.leaderId tr = (env.args.lastIncludedIndex, env.args.data) := by
  have hinv := StorageInv.run hrun
  obtain ⟨rf', hmake, hres, _⟩ := (hinv.durable s).make s
  obtain ⟨dummy, hlog, _⟩ := hres.log
  refine ⟨⟨rf', hmake, hres.currentTerm, hres.votedFor, hres.lastIncludedIndex,
    hres.lastIncludedTerm, ?_, ?_⟩, hinv.saved s, hinv.sent⟩
  · rw [hlog]
    rfl
  · simp only [World.step, World.crash, Persister.copy_eq, hmake]

/-- Server 0 of three wins term 1, commits one command and compacts it; server 2, which has been
sent nothing else, installs the snapshot. -/
def installRun : List (Action 3 Nat (RaftImage 3 Nat)) :=
  let vote : Envelope 3 (RequestVoteArgs 3) := ⟨0, 1, ⟨1, 0, 0, 0⟩⟩
  let append : Envelope 3 (AppendEntriesArgs 3 Nat) := ⟨1, 1, ⟨1, 0, 0, 0, [⟨some 7, 1⟩], 0⟩⟩
  let install : Envelope 3 (InstallSnapshotArgs 3 (RaftImage 3 Nat)) :=
    ⟨2, 2, ⟨1, 0, 1, 1, [bootImage]⟩⟩
  [ .electTimeout 0, .electRound 0 0, .electRound 0 0, .requestVote vote,
    .voteReply 0 0 vote { term := 1, voteGranted := true },
    .start 0 (some 7), .onRound 0 1, .appendEntries append,
    .appendReply 0 append { term := 1, success := true },
    .wakeApplier 0, .updateApplied 0, .sendCommand 0, .snapshot 0 1 [bootImage], .serviceDone 0,
    .onRound 0 2, .installSnapshot install, .sendSnapshot 2 0, .condInstallSnapshot 2 ]

theorem durable_before_release_installRun :
    ∃ w, Lib.run (World.step (Gob.plain (RaftImage 3 Nat))) World.init installRun = some w ∧
      lastSnapshot 2 w.trace = (1, [bootImage]) ∧ (w.nodes 2).rf.lastIncludedIndex = 1 ∧
      ∃ rf', Raft.make (Gob.plain (RaftImage 3 Nat)) 2 (w.nodes 2).rf.persister.copy = some rf' ∧
        rf'.lastIncludedIndex = (w.nodes 2).rf.lastIncludedIndex := by
  have hcheck : (Lib.run (World.step (Gob.plain (RaftImage 3 Nat))) World.init installRun).any
      (fun w ↦ decide (lastSnapshot 2 w.trace = (1, [bootImage]) ∧
        (w.nodes 2).rf.lastIncludedIndex = 1)) = true := by
    decide +kernel
  obtain ⟨w, hrun, hw⟩ := Lib.exists_run_of_any hcheck
  obtain ⟨hlast, hindex⟩ := of_decide_eq_true hw
  obtain ⟨⟨rf', hmake, _, _, hkeep, _⟩, _⟩ := durable_before_release hrun 2
  exact ⟨w, hrun, hlast, hindex, rf', hmake, hkeep⟩

/-! ## The term at the boundary -/

/-- The entry at `index` had this term when a snapshot with these bytes covered it.  Nothing is
covered at the start, where index, term and snapshot are those of an empty persister. -/
def CoveredBy (tr : List (Event n C σ)) (index term : Int) (data : List σ) : Prop :=
  index = 0 ∧ term = 0 ∧ data = [] ∨ ∃ s, .taken s index term data ∈ tr

theorem CoveredBy.mono {tr tr' : List (Event n C σ)} {index term : Int} {data : List σ}
    (h : CoveredBy tr index term data) (hsub : tr <:+ tr') : CoveredBy tr' index term data := by
  rcases h with h | ⟨s, hmem⟩
  · exact Or.inl h
  · exact Or.inr ⟨s, hsub.subset hmem⟩

/-- Both copies of the boundary term are the term of the covered entry, a restart keeps it, and
every `InstallSnapshot` carries it. -/
structure BoundaryRight (gob : Gob (RaftImage n C) σ) (w : World n C σ) : Prop where
  dummy : ∀ t, (w.nodes t).rf.dummyTerm = some (w.nodes t).rf.lastIncludedTerm
  covered : ∀ t, CoveredBy w.trace (w.nodes t).rf.lastIncludedIndex
    (w.nodes t).rf.lastIncludedTerm (w.nodes t).rf.persister.snapshot
  restart : ∀ t, ∃ rf', Raft.make gob t (w.nodes t).rf.persister.copy = some rf' ∧
    rf'.dummyTerm = (w.nodes t).rf.dummyTerm
  sent : ∀ env ∈ w.snapshotReqs, CoveredBy w.trace env.args.lastIncludedIndex
    env.args.lastIncludedTerm env.args.data

/-- A snapshot that `CondInstallSnapshot` is about to accept has the term that the server keeps for
its old boundary. -/
def InstallKeepsTerm (w : World n C σ) : Action n C σ → Prop
  | .condInstallSnapshot s =>
    ∀ msg ∈ (w.nodes s).applyCh, (w.nodes s).rf.commitIndex < msg.snapshotIndex →
      msg.snapshotTerm = (w.nodes s).rf.lastIncludedTerm
  | _ => True

instance (w : World n C σ) (a : Action n C σ) : Decidable (InstallKeepsTerm w a) := by
  unfold InstallKeepsTerm
  induction a using Action.casesOn <;> infer_instance

/-- The messages that are on their way to the service of a server. -/
def Node.Pending (nd : Node n C σ) (msg : ApplyMsg C σ) : Prop :=
  msg ∈ nd.batch ∨ msg ∈ nd.snapshots ∨ nd.applyCh = some msg

theorem pending_update {w : World n C σ} {s t : Fin n} {nd : Node n C σ} {msg : ApplyMsg C σ}
    (h : (Function.update w.nodes s nd t).Pending msg) :
    (w.nodes t).Pending msg ∨ t = s ∧ nd.Pending msg :=
  Lib.of_update (p := fun nd : Node n C σ ↦ nd.Pending msg) h

/-- A message on its way to a service was so before the step, or it is a command, or it is the
snapshot of a request that the server has not found stale. -/
theorem step_pending {w w' : World n C σ} {a : Action n C σ} (h : Step gob w a w') {t : Fin n}
    {msg : ApplyMsg C σ} (hmsg : (w'.nodes t).Pending msg) :
    (w.nodes t).Pending msg ∨ msg.snapshotValid = false ∨
      ∃ env ∈ w.snapshotReqs, env.args.term ≤ (w'.nodes t).rf.currentTerm ∧ msg =
        { snapshotValid := true
          snapshot := env.args.data
          snapshotTerm := env.args.lastIncludedTerm
          snapshotIndex := env.args.lastIncludedIndex } := by
  cases h with
  | timeoutLeader | roundIdle => exact Or.inl hmsg
  | installSnapshot env hnd henv h =>
      subst hnd
      rcases pending_update hmsg with hp | ⟨rfl, hb | hs | hc⟩
      · exact Or.inl hp
      · exact Or.inl (Or.inl hb)
      · rcases List.mem_append.mp hs with hold | hnew
        · exact Or.inl (Or.inr (Or.inl hold))
        · rw [Option.mem_toList] at hnew
          rw [Option.mem_def.mp hnew] at h
          refine Or.inr (Or.inr ⟨env, henv, ?_, Raft.installSnapshot_msg h⟩)
          have hrf := Raft.installSnapshot_rf gob (w.nodes env.dst).rf env.args
          rw [h] at hrf
          dsimp only at hrf ⊢
          rw [Function.update_self, hrf]
          exact Raft.le_stepDown_currentTerm gob _ _
      · exact Or.inl (Or.inr (Or.inr hc))
  | updateApplied s hnd hawake h =>
      subst hnd
      rcases pending_update hmsg with hp | ⟨rfl, hb | hs | hc⟩
      · exact Or.inl hp
      · obtain ⟨index, e, _, _, _, rfl⟩ := Raft.updateApplied_msgs h hb
        exact Or.inr (Or.inl rfl)
      · exact Or.inl (Or.inr (Or.inl hs))
      · exact Or.inl (Or.inr (Or.inr hc))
  | sendCommand s hnd hch hbatch =>
      subst hnd
      left
      rcases pending_update hmsg with hp | ⟨rfl, hb | hs | hc⟩
      · exact hp
      · exact Or.inl (hbatch ▸ List.mem_cons_of_mem _ hb)
      · exact Or.inr (Or.inl hs)
      · rw [Option.some.injEq] at hc
        exact Or.inl (hbatch ▸ hc ▸ List.mem_cons_self)
  | sendSnapshot s k hnd hch hk =>
      subst hnd
      left
      rcases pending_update hmsg with hp | ⟨rfl, hb | hs | hc⟩
      · exact hp
      · exact Or.inl hb
      · exact Or.inr (Or.inl (List.mem_of_mem_eraseIdx hs))
      · rw [Option.some.injEq] at hc
        exact Or.inr (Or.inl (hc ▸ List.mem_of_getElem? hk))
  | serviceDone s hnd | condInstallSnapshot s hnd =>
      subst hnd
      left
      rcases pending_update hmsg with hp | ⟨rfl, hb | hs | hc⟩
      · exact hp
      · exact Or.inl hb
      · exact Or.inr (Or.inl hs)
      · cases hc
  | crash s hnd h =>
      rcases pending_update hmsg with hp | ⟨rfl, hb | hs | hc⟩
      · exact Or.inl hp
      · cases hb
      · cases hs
      · cases hc
  -- the remaining steps leave the three places alone
  | campaign _ hnd | electSkip _ _ hnd | electSend _ _ hnd | requestVote _ hnd
  | voteRetire _ _ _ _ hnd | voteIgnore _ _ _ _ hnd | voteCount _ _ _ _ hnd
  | voteLead _ _ _ _ hnd | roundSnapshot _ _ hnd | roundAppend _ _ hnd | appendEntries _ hnd
  | appendReply _ _ _ hnd | snapshotReply _ _ _ hnd | start _ _ hnd | wakeApplier _ hnd
  | snapshot _ _ _ hnd =>
      subst hnd
      rcases pending_update hmsg with hp | ⟨rfl, hp⟩
      · exact Or.inl hp
      · exact Or.inl hp

/-- `BoundaryRight` with what its induction needs: the snapshots that are still to be installed are
covered too. -/
structure BoundaryInv (gob : Gob (RaftImage n C) σ) (w : World n C σ) : Prop where
  storage : StorageInv gob w
  dummy : ∀ t, (w.nodes t).rf.dummyTerm = some (w.nodes t).rf.lastIncludedTerm
  covered : ∀ t, CoveredBy w.trace (w.nodes t).rf.lastIncludedIndex
    (w.nodes t).rf.lastIncludedTerm (w.nodes t).rf.persister.snapshot
  sent : ∀ env ∈ w.snapshotReqs, CoveredBy w.trace env.args.lastIncludedIndex
    env.args.lastIncludedTerm env.args.data
  pending : ∀ t msg, (w.nodes t).Pending msg → msg.snapshotValid = true →
    CoveredBy w.trace msg.snapshotIndex msg.snapshotTerm msg.snapshot

namespace BoundaryInv

theorem init : BoundaryInv gob (World.init : World n C σ) where
  storage := StorageInv.init
  dummy := fun _ ↦ rfl
  covered := fun _ ↦ Or.inl ⟨rfl, rfl, rfl⟩
  sent := by
    intro env henv
    cases henv
  pending := by
    rintro t msg (hb | hs | hc)
    · cases hb
    · cases hs
    · cases hc

theorem step {w w' : World n C σ} {a : Action n C σ} (h : BoundaryInv gob w)
    (hok : InstallKeepsTerm w a) (hstep : Step gob w a w') : BoundaryInv gob w' := by
  have hsuffix := World.step_trace hstep
  refine ⟨h.storage.step hstep, ?_, ?_, ?_, ?_⟩
  · intro t
    cases step_boundary hstep h.storage.durable t with
    | same hsame htr => rw [hsame.dummy, hsame.term, h.dummy t]
    | installed ha hch hvalid hnew hindex hterm hdummy hsnapshot htr =>
        subst ha
        rw [hdummy, hterm, hok _ hch hnew]
    | taken ha hentry hindex hterm hdummy hsnapshot htr => rw [hdummy, hterm]
    | restarted ha hres htr =>
        obtain ⟨d, hlog, hd⟩ := hres.log
        rw [Raft.dummyTerm, hlog, hres.lastIncludedTerm, ← hd]
        rfl
  · intro t
    cases step_boundary hstep h.storage.durable t with
    | same hsame htr =>
        rw [hsame.index, hsame.term, hsame.snapshot]
        exact (h.covered t).mono hsuffix
    | installed ha hch hvalid hnew hindex hterm hdummy hsnapshot htr =>
        subst ha
        rw [hindex, hterm, hsnapshot, ← hok _ hch hnew]
        exact (h.pending t _ (Or.inr (Or.inr hch)) hvalid).mono hsuffix
    | taken ha hentry hindex hterm hdummy hsnapshot htr =>
        rw [hindex, hterm, hsnapshot, htr]
        exact Or.inr ⟨t, List.mem_cons_self⟩
    | restarted ha hres htr =>
        rw [hres.lastIncludedIndex, hres.lastIncludedTerm, hres.persister]
        exact (h.covered t).mono hsuffix
  · intro env henv
    rcases h.storage.sent_step hstep henv with hold | ⟨s, _, hargs⟩
    · exact (h.sent env hold).mono hsuffix
    · rw [hargs]
      exact (h.covered s).mono hsuffix
  · intro t msg hmsg hvalid
    rcases step_pending hstep hmsg with hold | hcmd | ⟨env, henv, _, rfl⟩
    · exact (h.pending t msg hold hvalid).mono hsuffix
    · rw [hcmd] at hvalid
      cases hvalid
    · exact (h.sent env henv).mono hsuffix

theorem right {w : World n C σ} (h : BoundaryInv gob w) : BoundaryRight gob w := by
  refine ⟨h.dummy, h.covered, ?_, h.sent⟩
  intro t
  obtain ⟨rf', hmake, hres, _⟩ := (h.storage.durable t).make t
  obtain ⟨d, hlog, hd⟩ := hres.log
  refine ⟨rf', hmake, ?_⟩
  rw [h.dummy t, Raft.dummyTerm, hlog, ← hd]
  rfl

end BoundaryInv

/-- An accepted snapshot puts its term into the dummy entry and leaves `lastIncludedTerm` as it
was. -/
theorem step_installed {w w' : World n C σ} {s : Fin n} {msg : ApplyMsg C σ}
    (h : Step gob w (.condInstallSnapshot s) w') (hch : (w.nodes s).applyCh = some msg)
    (hnew : (w.nodes s).rf.commitIndex < msg.snapshotIndex) :
    (w'.nodes s).rf.dummyTerm = some msg.snapshotTerm ∧
      (w'.nodes s).rf.lastIncludedTerm = (w.nodes s).rf.lastIncludedTerm := by
  cases h with
  | condInstallSnapshot _ hnd hch' hvalid h =>
      subst hnd
      rw [hch, Option.some.injEq] at hch'
      subst hch'
      rcases Raft.condInstallSnapshot_cases h with ⟨_, hle, _⟩ | ⟨_, _, rest, rf₁, rfl, rfl⟩
      · omega
      · dsimp only
        rw [Function.update_self]
        exact ⟨rfl, rfl⟩

/-- The boundary term is right in every state of a run exactly when every snapshot that
`CondInstallSnapshot` accepts on the way has the term that the server already keeps in
`lastIncludedTerm`: the call writes the term to the dummy entry only. -/
theorem boundary_right_iff_install_keeps_term [DecidableEq C] [DecidableEq σ]
    {gob : Gob (RaftImage n C) σ} {u : World n C σ} {as : List (Action n C σ)}
    (hrun : Lib.run (World.step gob) World.init as = some u) :
    (∀ pre w, pre <+: as → Lib.run (World.step gob) World.init pre = some w →
        BoundaryRight gob w) ↔
      Lib.Along (World.step gob) InstallKeepsTerm World.init as := by
  constructor
  · intro hright
    rw [Lib.along_iff_forall_isPrefix hrun]
    intro pre a w hpre hw
    cases a with
    | condInstallSnapshot s => ?_
    | _ => trivial
    intro msg hch hnew
    -- the step is taken, and the state after it is right as well
    obtain ⟨w', hw'⟩ := Lib.exists_run_of_isPrefix hrun hpre
    obtain ⟨v, hv, hstep⟩ := Lib.run_concat.mp hw'
    rw [hw, Option.some.injEq] at hv
    subst hv
    obtain ⟨hdummy, hterm⟩ := step_installed (World.step_inv hstep) hch hnew
    have hboth := (hright _ _ hpre hw').dummy s
    rw [hdummy, hterm, Option.some.injEq] at hboth
    exact hboth
  · rintro hal pre w ⟨post, rfl⟩ hw
    have hpre := ((Lib.along_append hw).mp hal).1
    exact (Lib.run_invariant (fun _ _ _ h hok hstep ↦ h.step hok (World.step_inv hstep))
      BoundaryInv.init hpre hw).right

/-- After `installRun` server 2 keeps term 1 in its dummy entry and term 0 in
`lastIncludedTerm`. -/
theorem boundary_wrong_after_install :
    ∃ w, Lib.run (World.step (Gob.plain (RaftImage 3 Nat))) World.init installRun = some w ∧
      (w.nodes 2).rf.lastIncludedIndex = 1 ∧ (w.nodes 2).rf.dummyTerm = some 1 ∧
      (w.nodes 2).rf.lastIncludedTerm = 0 ∧
      ¬ BoundaryRight (Gob.plain (RaftImage 3 Nat)) w := by
  have hcheck : (Lib.run (World.step (Gob.plain (RaftImage 3 Nat))) World.init installRun).any
      (fun w ↦ decide ((w.nodes 2).rf.lastIncludedIndex = 1 ∧
        (w.nodes 2).rf.dummyTerm = some 1 ∧ (w.nodes 2).rf.lastIncludedTerm = 0)) = true := by
    decide +kernel
  obtain ⟨w, hrun, hw⟩ := Lib.exists_run_of_any hcheck
  obtain ⟨hindex, hdummy, hterm⟩ := of_decide_eq_true hw
  refine ⟨w, hrun, hindex, hdummy, hterm, fun hright ↦ ?_⟩
  have hboth := hright.dummy 2
  rw [hdummy, hterm] at hboth
  exact absurd hboth (by decide)

/-- A run in which the condition holds: the compaction of `installRun`, without the install. -/
theorem boundary_right_after_compaction :
    ∃ u, Lib.run (World.step (Gob.plain (RaftImage 3 Nat))) World.init (installRun.take 15) =
        some u ∧
      ∀ pre w, pre <+: installRun.take 15 →
        Lib.run (World.step (Gob.plain (RaftImage 3 Nat))) World.init pre = some w →
          BoundaryRight (Gob.plain (RaftImage 3 Nat)) w := by
  have hcheck : (Lib.run (World.step (Gob.plain (RaftImage 3 Nat))) World.init
      (installRun.take 15)).any (fun _ ↦ true) = true := by
    decide +kernel
  obtain ⟨u, hrun, _⟩ := Lib.exists_run_of_any hcheck
  have hok : Lib.Along (World.step (Gob.plain (RaftImage 3 Nat))) InstallKeepsTerm World.init
      (installRun.take 15) := by
    decide +kernel
  exact ⟨u, hrun, (boundary_right_iff_install_keeps_term hrun).mpr hok⟩

end Lab6824
